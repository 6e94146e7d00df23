import SwApi.Parameter.Invariant
import SwApi.Parameter.Threads

/-! What the section of each call does to the descriptions in use, and whom it tells. -/
namespace SwApi.Parameter
open Library Os Option Function

section
variable {t : Table}

def Table.write (t : Table) (i : Nat) (p : Para) (attempts : Nat) : Table :=
  { t with plist := update t.plist i p, allocs := attempts }

/-- A set of a name at `i` that writes something: the description may move to the depot
that is asked for, and that depot has something to save. -/
structure Rewrites (t : Table) (i : Nat) (value : Option CString) (depot : Option Depot)
    (t' : Table) : Prop where
  given : value ≠ none
  unlocked : writeProtected (t.plist i) = some false
  raised : notRaised (t.plist i) depot = some false
  kept : handedOn (t.plist i) false = some false
  written : ∃ v n,
    (t.write i { t.plist i with value := v, depot := depot.or (t.plist i).depot } n).touch
      (depot.or (t.plist i).depot) = some t'

theorem setFound_cases (h : setFound alloc t i value depot isLoad onlyDefault = some (r, t')) :
    t' = t ∨ value ≠ none ∧ writeProtected (t.plist i) = some false ∧
      notRaised (t.plist i) depot = some false ∧ handedOn (t.plist i) isLoad = some false ∧ ∃ v n,
        if isLoad then ∃ realtime, t' = t.write i
          { t.plist i with value := v, realtime, depot := depot.or (t.plist i).depot } n
        else (t.write i { t.plist i with value := v, depot := depot.or (t.plist i).depot } n).touch
          (depot.or (t.plist i).depot) = some t' := by
  cases value with
  | none =>
    cases h
    exact .inl rfl
  | some value =>
    obtain ⟨locked, hlocked, h⟩ := bind_eq_some_iff.1 h
    cases locked with
    | true =>
      cases h
      exact .inl rfl
    | false =>
      rw [if_neg Bool.false_ne_true] at h
      split at h
      · cases h
        exact .inl rfl
      obtain ⟨lower, hlower, h⟩ := bind_eq_some_iff.1 h
      cases lower with
      | true =>
        cases h
        exact .inl rfl
      | false =>
        obtain ⟨java, hjava, h⟩ := bind_eq_some_iff.1 h
        cases java with
        | true =>
          cases h
          exact .inl rfl
        | false =>
          rw [if_neg Bool.false_ne_true] at h
          split at h
          · cases h
            exact .inl rfl
          obtain ⟨v, n, hstore⟩ := attempts_storeValue alloc t (t.plist i).value value
          rw [hstore] at h
          refine .inr ⟨some_ne_none value, hlocked, hlower, hjava, v, n, ?_⟩
          cases isLoad with
          | true =>
            obtain ⟨java, -, h⟩ := bind_eq_some_iff.1 h
            cases h
            exact ⟨_, rfl⟩
          | false =>
            obtain ⟨t₁, htouch, h⟩ := bind_eq_some_iff.1 h
            cases h
            exact htouch

theorem setFound_inv (h : setFound alloc t i value depot false false = some (r, t')) :
    t' = t ∨ Rewrites t i value depot t' := by
  rcases setFound_cases h with hsame | ⟨hgiven, hlocked, hlower, hjava, v, n, htouch⟩
  · exact .inl hsame
  · exact .inr ⟨hgiven, hlocked, hlower, hjava, v, n, htouch⟩

theorem insertQsort_inv (h : insertQsort t = some t') : ∃ plist, t' = { t with plist } := by
  unfold insertQsort at h
  split at h
  · cases h
    exact ⟨t.plist, rfl⟩
  · obtain ⟨name, -, h⟩ := bind_eq_some_iff.1 h
    obtain ⟨found, -, h⟩ := bind_eq_some_iff.1 h
    split at h
    · cases h
      exact ⟨t.plist, rfl⟩
    · split at h
      · obtain ⟨p, -, h⟩ := bind_eq_some_iff.1 h
        cases h
        split
        · exact ⟨_, rfl⟩
        · exact ⟨t.plist, rfl⟩
      · obtain ⟨p, -, h⟩ := bind_eq_some_iff.1 h
        cases h
        exact ⟨_, rfl⟩

structure Inserts (alloc : Alloc) (t : Table) (name : CString) (depot : Option Depot) (t' : Table) :
    Prop where
  room : t.pnum < maxParaNum
  inserted : ∃ v d realtime n t₁, depot.or t.defdepot = some d ∧
    { t with allocs := n }.touch (some d) = some t₁ ∧
    t₁.append ⟨if alloc t.allocs then some name else none, v, false, realtime, some d⟩ = some t'

theorem setNew_cases (h : setNew alloc t name value depot isLoad = some (r, t')) :
    t' = t ∨ t.pnum < maxParaNum ∧ ∃ v d realtime n t₁, depot.or t.defdepot = some d ∧
      (if isLoad then some { t with allocs := n } else { t with allocs := n }.touch (some d)) =
      some t₁ ∧
      t₁.append ⟨if alloc t.allocs then some name else none, v, false, realtime, some d⟩ =
      some t' := by
  unfold setNew at h
  split at h
  · rename_i hroom
    obtain ⟨v, n, hdup⟩ := attempts_dupValue alloc { t with allocs := t.allocs + 1 } value
    simp only [swMemStrdup, hdup] at h
    obtain ⟨t₁, htouch, h⟩ := bind_eq_some_iff.1 h
    obtain ⟨java, hjava, h⟩ := bind_eq_some_iff.1 h
    obtain ⟨d, hd, -⟩ := map_eq_some_iff.1 hjava
    obtain ⟨t₂, happend, h⟩ := bind_eq_some_iff.1 h
    cases h
    rw [hd] at htouch happend
    exact .inr ⟨hroom.1, v, d, _, n, t₁, hd, htouch, happend⟩
  · cases h
    exact .inl rfl

theorem setNew_inv (h : setNew alloc t name value depot false = some (r, t')) :
    t' = t ∨ Inserts alloc t name depot t' := by
  rcases setNew_cases h with hsame | ⟨hroom, hinserted⟩
  · exact .inl hsame
  · exact .inr ⟨hroom, hinserted⟩

theorem set_inv (h : swParameterSetWithDepot alloc t name value depot false false = some (r, t')) :
    t' = t ∨ (∃ i, swParameterFind t name = some (some i) ∧ Rewrites t i value depot t') ∨
      swParameterFind t name = some none ∧ Inserts alloc t name depot t' := by
  obtain ⟨found, hfind, h⟩ := bind_eq_some_iff.1 h
  cases found with
  | none => exact (setNew_inv h).imp_right fun h => .inr ⟨hfind, h⟩
  | some i => exact (setFound_inv h).imp_right fun h => .inl ⟨i, hfind, h⟩

theorem touch_inv (h : t.touch depot = some t') :
    ∃ d, depot = some d ∧
      t' = { t with
        modified := update t.modified d true
        saveauto := t.saveauto || d.autosave
        signal := if d.autosave then swSignalGive t.signal else t.signal } := by
  obtain ⟨d, rfl, h⟩ := bind_eq_some_iff.1 h
  refine ⟨d, rfl, ?_⟩
  cases h
  cases d.autosave <;> simp

end

/-- Depot `d` has something to save; the saving thread learns of it if `d` is saved by itself. -/
structure Touches (t t' : Table) (d : Depot) : Prop where
  modified : t'.modified = update t.modified d true
  saveauto : t'.saveauto = (t.saveauto || d.autosave)

theorem Rewrites.entries (h : Rewrites t i value depot t') :
    ∃ p d, t'.entries = t.entries.set i p ∧ p.name = (t.plist i).name ∧ p.depot = some d ∧
      depot.or (t.plist i).depot = some d ∧ Touches t t' d := by
  obtain ⟨v, n, htouch⟩ := h.written
  obtain ⟨d, hd, rfl⟩ := touch_inv htouch
  exact ⟨_, d, cells_update .., rfl, hd, hd, rfl, rfl⟩

theorem Inserts.entries (halloc : ∀ k, alloc k = true) (hwf : WellFormed t)
    (hnew : ∀ q ∈ t.entries, q.key ≠ name.fold) (h : Inserts alloc t name depot t') :
    ∃ k p d, k ≤ t.pnum ∧ t'.entries = t.entries.take k ++ p :: t.entries.drop k ∧
      p.name = some name ∧ p.depot = some d ∧ depot.or t.defdepot = some d ∧ Touches t t' d := by
  obtain ⟨v, d, realtime, n, t₁, hd, htouch, happend⟩ := h.inserted
  obtain ⟨d', hd', ht₁⟩ := touch_inv htouch
  cases hd'
  have hs : SameParas t t₁ := by
    rw [ht₁]
    exact ⟨rfl, rfl, rfl, rfl⟩
  rw [if_pos (halloc _)] at happend
  obtain ⟨k, t₂, happend₂, -, hk, hentries, -⟩ := (hs.wellFormed hwf).append
    (p := ⟨some name, v, false, realtime, some d⟩) rfl ⟨d, rfl⟩ (by rw [hs.entries]; exact hnew)
    (by rw [hs.pnum]; exact h.room)
  cases some.inj (happend.symm.trans happend₂)
  rw [hs.entries] at hentries
  rw [hs.pnum] at hk
  obtain ⟨plist, rfl⟩ := insertQsort_inv happend
  refine ⟨k, _, d, hk, hentries, rfl, rfl, hd, ?_, ?_⟩ <;> rw [ht₁]

theorem WellFormed.find_lt (hwf : WellFormed t) (hfind : swParameterFind t name = some (some i)) :
    i < t.pnum ∧ (t.plist i).key = name.fold := by
  rcases hwf.find name with ⟨j, hfind', hj, hkey⟩ | ⟨hmissing, -⟩
  · cases some.inj (hfind.symm.trans hfind')
    exact ⟨hj, hkey⟩
  · cases hfind.symm.trans hmissing

theorem WellFormed.find_new (hwf : WellFormed t) (hfind : swParameterFind t name = some none) :
    ∀ q ∈ t.entries, q.key ≠ name.fold := by
  rcases hwf.find name with ⟨j, hfind', -⟩ | ⟨-, hnew⟩
  · cases hfind.symm.trans hfind'
  · exact hnew

theorem delete_inv (h : swParameterDelete t name = some (r, t')) :
    t' = t ∨ ∃ i d, swParameterFind t name = some (some i) ∧ (t.plist i).depot = some d ∧
      (t.plist i).readonly = false ∧ d.type ≠ .java ∧
      (i < t.pnum → t'.entries = t.entries.eraseIdx i) ∧
      t'.modified = update t.modified d true ∧ t'.saveauto = t.saveauto ∧ t'.signal = t.signal := by
  obtain ⟨found, hfind, h⟩ := bind_eq_some_iff.1 h
  cases found with
  | none =>
    cases h
    exact .inl rfl
  | some i =>
    dsimp only at h
    split at h
    · cases h
      exact .inl rfl
    · rename_i hwritable
      obtain ⟨d, hd, h⟩ := bind_eq_some_iff.1 h
      split at h
      · cases h
        exact .inl rfl
      · rename_i hjava
        cases h
        exact .inr ⟨i, d, hfind, hd, Bool.eq_false_iff.2 hwritable, hjava,
          fun hi => cells_delete t.plist hi, rfl, rfl, rfl⟩

theorem deleteAll_inv (h : swParameterDeleteAll t = some t') : ∃ d, t.defdepot = some d ∧
      t'.entries = t.entries.filter (fun p => p.readonly || p.depot != some d) ∧
      t'.modified = update t.modified d true ∧ t'.saveauto = t.saveauto ∧ t'.signal = t.signal := by
  obtain ⟨d, hd, -⟩ := bind_eq_some_iff.1 h
  obtain ⟨t'', heq, hentries, -, -, hflags⟩ := deleteAll_eq hd
  cases some.inj (h.symm.trans heq)
  exact ⟨d, hd, hentries, hflags⟩

theorem Work.Leaves.returns {work : Work} (halloc : ∀ k, alloc k = true) (hwf : WellFormed t)
    (hdef : ∃ d, t.defdepot = some d) (h : work.Leaves alloc t t') :
    WellFormed t' ∧ t'.depots = t.depots ∧ t'.defdepot = t.defdepot := by
  cases h with
  | attempts _ n => exact ⟨(SameParas.attempts t n).wellFormed hwf, rfl, rfl⟩
  | @get name b reply r text t' h =>
    exact (hwf.get halloc hdef name b reply).1.of_eq (by rw [h]; rfl)
  | @set name value depot r t' n h =>
    have hwf' := (SameParas.attempts t n).wellFormed hwf
    exact (hwf'.setWithDepot halloc hdef name value depot false false).1.of_eq h
  | @delete name r t' h => exact (hwf.delete name).1.of_eq h
  | deleteAll h => exact (hwf.deleteAll hdef).1.of_eq (by rw [h]; rfl)
  | save =>
    unfold swParameterSave
    split
    · exact ⟨SameParas.wellFormed (t := t) ⟨rfl, rfl, rfl, rfl⟩ hwf, rfl, rfl⟩
    · exact ⟨hwf, rfl, rfl⟩

end SwApi.Parameter
