import SwApi.Parameter.Store

/-! `sw_parameter_set` when the pool runs out. The old text of a name is given back
before the new one is copied, the two copies for a new name are not checked, and
the result is true all the same. -/
namespace SwApi.Parameter
open Library Option

/-- `sw_parameter_get` answers `value` in every buffer that has room for it,
whatever the depot would answer. -/
def Yields (alloc : Alloc) (t : Table) (name value : CString) : Prop :=
  ∀ (b : Buffer) (reply : Reply), b.present = true → (value.strlen : Int) < b.size →
    ∃ t', swParameterGet alloc t name b reply = some (true, some value, t')

def Truthful (alloc : Alloc) (t : Table) (name value : CString) : Prop :=
  ∃ r t', swParameterSet alloc t name (some value) = some (r, t') ∧
    (r = true → Yields alloc t' name value) ∧ (r = false → t'.pairs = t.pairs) ∧
    ∀ p ∈ t'.entries, p.name ≠ none

/-- Neither the parameter nor a new one of that name is left to a JAVA depot. -/
def NotRealtime (t : Table) (name : CString) : Prop :=
  match swParameterFind t name with
  | some (some i) =>
      ∀ d, (t.plist i).depot = some d → ¬(d.type = .java ∧ (t.plist i).realtime = true)
  | _ => ∀ d, t.defdepot = some d → d.type ≠ .java

def Affordable (alloc : Alloc) (t : Table) (name value : CString) : Prop :=
  match swParameterFind t name with
  | some (some i) => writeProtected (t.plist i) = some true ∨
      (∃ v ∈ (t.plist i).value, value.strlen ≤ v.strlen) ∨ alloc t.allocs = true
  | _ => ¬(t.pnum < maxParaNum ∧ name.strlen < 256) ∨
      t.defdepot ≠ none ∧ alloc t.allocs = true ∧ alloc (t.allocs + 1) = true

section
variable {p : Para} {d : Depot}

theorem not_left (hplain : ¬(d.type = .java ∧ p.realtime = true)) :
    (d.type == .java && p.realtime && !p.readonly) = false := by
  rw [Bool.and_eq_false_iff]
  left
  simpa using hplain

theorem strlcpy_eq {b : Buffer} (hpresent : b.present = true)
    (hsize : (s.strlen : Int) < b.size) : b.strlcpy s = some s := by
  have hroom : b.present = true ∧ 0 < b.size := ⟨hpresent, by omega⟩
  rw [Buffer.strlcpy, if_pos hroom]
  congr 1
  apply CString.ext
  apply List.take_of_length_le
  change s.strlen ≤ _
  omega

def otherText (value : CString) : CString :=
  if value = .empty then cstring [120] else .empty

theorem otherText_ne : otherText value ≠ value := by
  unfold otherText
  split
  · rename_i h
    rw [h]
    decide
  · rename_i h
    exact fun heq => h heq.symm

theorem otherText_strlen (value : CString) : (otherText value).strlen ≤ 1 := by
  unfold otherText
  split
  · exact le_rfl
  · exact Nat.zero_le _

variable (h : WellFormed t) (hp : p ∈ t.entries) (hkey : p.key = CString.fold name)
    (hd : p.depot = some d)
  (hplain : ¬(d.type = .java ∧ p.realtime = true))
include h hp hkey hd hplain

theorem WellFormed.get_stored (hvalue : p.value = some value) (b : Buffer) (reply : Reply) :
    swParameterGet alloc t name b reply = some (true, b.strlcpy value, t) := by
  obtain ⟨i, hfind, -, rfl⟩ := h.find_mem hp hkey
  simp only [swParameterGet, hfind, bind_eq_bind, bind_some, Parameter.getAt,
    isJava_eq hd, not_left hplain, Bool.false_eq_true, if_false, hvalue]

theorem WellFormed.get_asked (hvalue : p.value = none) (alloc : Alloc) (b : Buffer)
    (text : CString) :
    ∃ t', swParameterGet alloc t name b ⟨true, text⟩ = some (true, b.strlcpy text, t') := by
  obtain ⟨i, hfind, -, rfl⟩ := h.find_mem hp hkey
  simp only [swParameterGet, hfind, bind_eq_bind, bind_some, Parameter.getAt,
    isJava_eq hd, not_left hplain, Bool.false_eq_true, if_false, hvalue, if_true]
  exact ⟨_, rfl⟩

theorem WellFormed.yields_iff (hvalue : p.value = none ∨ p.value = some value) :
    Yields alloc t name value ↔ p.value = some value := by
  constructor
  · intro hyields
    rcases hvalue with hnone | hsome
    · have hlen := otherText_strlen value
      obtain ⟨t₁, hget⟩ := hyields ⟨true, value.strlen + 2⟩ ⟨true, otherText value⟩ rfl (by simp)
      obtain ⟨t₂, hasked⟩ := h.get_asked hp hkey hd hplain hnone alloc
        ⟨true, value.strlen + 2⟩ (otherText value)
      rw [strlcpy_eq rfl (by simp; omega)] at hasked
      have heq := hget.symm.trans hasked
      simp only [some.injEq, Prod.mk.injEq, true_and] at heq
      exact absurd heq.1.symm otherText_ne
    · exact hsome
  · intro hsome b reply hpresent hsize
    refine ⟨t, ?_⟩
    rw [h.get_stored hp hkey hd hplain hsome, strlcpy_eq hpresent hsize]

end

section
variable {alloc : Alloc} {t : Table}

theorem copied_or_not (ok : Bool) (value : CString) :
    ok = true ∧ (if ok then some value else none) = some value ∨
      ¬ok = true ∧ (if ok then some value else none) = none := by
  cases ok <;> simp

theorem storeValue_fst (alloc : Alloc) (t : Table) (old : Option CString) (value : CString) :
    ((∃ v ∈ old, value.strlen ≤ v.strlen) ∨ alloc t.allocs = true) ∧
        (storeValue alloc t old value).1 = some value ∨
      ¬((∃ v ∈ old, value.strlen ≤ v.strlen) ∨ alloc t.allocs = true) ∧
        (storeValue alloc t old value).1 = none := by
  cases old with
  | none => simp [storeValue, swMemStrdup]
  | some v =>
    rw [storeValue]
    split
    · rename_i heq
      exact .inl ⟨.inl ⟨v, rfl, by rw [heq]⟩, by rw [heq]⟩
    · split
      · rename_i hle
        exact .inl ⟨.inl ⟨v, rfl, hle⟩, rfl⟩
      · rename_i hlong
        simp [swMemStrdup, hlong]

theorem set_found (alloc : Alloc) (value : CString)
    (hfind : swParameterFind t name = some (some i)) (hd : (t.plist i).depot = some d)
    (hplain : ¬(d.type = .java ∧ (t.plist i).realtime = true)) :
    swParameterSet alloc t name (some value) =
      if writeProtected (t.plist i) = some true then some (false, t)
      else if (t.plist i).value = some value then some (true, t)
      else
        let (v, t') := storeValue alloc t (t.plist i).value value
        ((t'.setPara i { t.plist i with value := v }).touch (some d)).bind fun t'' =>
          some (true, t'') := by
  have hlocked : ∃ b, writeProtected (t.plist i) = some b := by
    unfold writeProtected
    rw [isJava_eq hd]
    split <;> exact ⟨_, rfl⟩
  obtain ⟨locked, hlocked⟩ := hlocked
  have hhanded : handedOn (t.plist i) false = some false := by
    simp only [handedOn, isJava_eq hd]
    simpa using hplain
  have hor : (none : Option Depot).or (some d) = some d := rfl
  simp only [swParameterSet, swParameterSetWithDepot, hfind, bind_eq_bind, bind_some,
    setFound, hlocked, Bool.false_and, Bool.false_eq_true, if_false, notRaised, hhanded, hd, hor,
    beq_self_eq_true, Bool.true_or, Bool.and_true, beq_iff_eq, some.injEq]

theorem WellFormed.name_ne_none (h : WellFormed t) : ∀ p ∈ t.entries, p.name ≠ none := by
  intro p hp
  obtain ⟨n, hn⟩ := h.named p hp
  rw [hn]
  exact some_ne_none n

theorem truthful_refused (h : WellFormed t)
    (hset : swParameterSet alloc t name (some value) = some (false, t)) :
    Truthful alloc t name value :=
  ⟨false, t, hset, fun hr => (by cases hr), fun _ => rfl, h.name_ne_none⟩

theorem truthful_set_iff (h : WellFormed t')
    (hset : swParameterSet alloc t name (some value) = some (true, t')) :
    Truthful alloc t name value ↔ Yields alloc t' name value := by
  constructor
  · rintro ⟨r, t'', hset', hyields, -⟩
    cases some.inj (hset.symm.trans hset')
    exact hyields rfl
  · intro hyields
    exact ⟨true, t', hset, fun _ => hyields, fun hr => (by cases hr), h.name_ne_none⟩

theorem truthful_found_iff (h : WellFormed t) (hfind : swParameterFind t name = some (some i))
    (hi : i < t.pnum) (hkey : (t.plist i).key = name.fold) (hd : (t.plist i).depot = some d)
    (hplain : ¬(d.type = .java ∧ (t.plist i).realtime = true)) :
    Truthful alloc t name value ↔ writeProtected (t.plist i) = some true ∨
      (∃ v ∈ (t.plist i).value, value.strlen ≤ v.strlen) ∨ alloc t.allocs = true := by
  have hset := set_found alloc value hfind hd hplain
  by_cases hlocked : writeProtected (t.plist i) = some true
  · rw [if_pos hlocked] at hset
    exact ⟨fun _ => .inl hlocked, fun _ => truthful_refused h hset⟩
  rw [if_neg hlocked] at hset
  by_cases hsame : (t.plist i).value = some value
  · rw [if_pos hsame] at hset
    rw [truthful_set_iff h hset, h.yields_iff (t.mem_entries hi) hkey hd hplain (.inr hsame)]
    exact ⟨fun _ => .inr (.inl ⟨value, hsame, le_rfl⟩), fun _ => hsame⟩
  rw [if_neg hsame] at hset
  have hstored := storeValue_fst alloc t (t.plist i).value value
  have hs := (attempts_storeValue alloc t (t.plist i).value value).same
  generalize storeValue alloc t (t.plist i).value value = r at hset hstored hs
  obtain ⟨v, t₁⟩ := r
  dsimp only at hset hstored hs
  -- the description with its new value is found again
  have h₂ : WellFormed (t₁.setPara i { t.plist i with value := v }) :=
    (hs.wellFormed h).setPara (by rw [hs.pnum]; exact hi) (by rw [hs.plist]) ⟨d, hd⟩
  obtain ⟨t₃, htouch, hs₃⟩ := touch_same (t₁.setPara i { t.plist i with value := v }) d
  rw [htouch, bind_some] at hset
  have h₃ := hs₃.wellFormed h₂
  have hmem : { t.plist i with value := v } ∈ t₃.entries := by
    rw [hs₃.entries, Table.entries_setPara]
    exact List.mem_set (by rw [Table.entries_length, hs.pnum]; exact hi) _
  rw [truthful_set_iff h₃ hset, h₃.yields_iff hmem hkey hd hplain
    (hstored.symm.imp And.right And.right)]
  dsimp only
  rcases hstored with ⟨hroom, hv⟩ | ⟨hroom, hv⟩
  · exact ⟨fun _ => .inr hroom, fun _ => hv⟩
  · rw [hv]
    constructor
    · intro hnone
      cases hnone
    · rintro (hlocked' | hroom')
      · exact absurd hlocked' hlocked
      · exact absurd hroom' hroom

theorem append_unnamed (hp : p.name = none) (happend : t.append p = some t') :
    ∃ q ∈ t'.entries, q.name = none := by
  change insertQsort (t.filled p) = some t' at happend
  have hlast : (t.filled p).plist t.pnum = p := Function.update_self ..
  rw [insertQsort] at happend
  split at happend
  · cases happend
    refine ⟨p, ?_, hp⟩
    have hmem := (t.filled p).mem_entries (i := t.pnum) (Nat.lt_succ_self _)
    rw [hlast] at hmem
    exact hmem
  · have hmax : (t.filled p).pnum - 1 = t.pnum := rfl
    simp only [hmax, hlast, hp, bind_eq_bind, bind_none] at happend
    cases happend

theorem set_new (alloc : Alloc) (value : CString) (hfind : swParameterFind t name = some none)
    (hroom : t.pnum < maxParaNum ∧ name.strlen < 256) (hd : t.defdepot = some d) :
    ∃ t₁ realtime, SameParas t t₁ ∧ swParameterSet alloc t name (some value) =
      (t₁.append ⟨if alloc t.allocs then some name else none,
        if alloc (t.allocs + 1) then some value else none, false, realtime, some d⟩).bind fun t' =>
          some (true, t') := by
  obtain ⟨t₁, htouch, hs⟩ := touch_same { t with allocs := t.allocs + 1 + 1 } d
  refine ⟨t₁, d.type == .java || (t₁.plist t₁.pnum).realtime,
    ⟨hs.plist, hs.pnum, hs.depots, hs.defdepot⟩, ?_⟩
  have hor : (none : Option Depot).or t.defdepot = some d := by
    rw [hd]
    rfl
  rw [swParameterSet, swParameterSetWithDepot, hfind]
  simp only [bind_eq_bind, bind_some, setNew, if_pos hroom, swMemStrdup, dupValue, hor,
    Bool.false_eq_true, if_false, htouch, isJava, map_some]
  rfl

theorem truthful_new_iff (h : WellFormed t) (hfind : swParameterFind t name = some none)
    (hnew : ∀ p ∈ t.entries, p.key ≠ name.fold) (hplain : ∀ d, t.defdepot = some d →
    d.type ≠ .java) : Truthful alloc t name value ↔ ¬(t.pnum < maxParaNum ∧ name.strlen < 256) ∨
      t.defdepot ≠ none ∧ alloc t.allocs = true ∧ alloc (t.allocs + 1) = true := by
  by_cases hroom : t.pnum < maxParaNum ∧ name.strlen < 256
  case neg =>
    refine ⟨fun _ => .inl hroom, fun _ => truthful_refused h ?_⟩
    rw [swParameterSet, swParameterSetWithDepot, hfind]
    simp [setNew, if_neg hroom]
  cases hdef : t.defdepot with
  | none =>
    -- the field `set` of a NULL depot is followed
    have hset : swParameterSet alloc t name (some value) = none := by
      rw [swParameterSet, swParameterSetWithDepot, hfind]
      simp only [bind_eq_bind, bind_some, setNew, if_pos hroom, swMemStrdup, dupValue,
        hdef, or_none, Table.touch, bind_none, Bool.false_eq_true, if_false]
    constructor
    · rintro ⟨r, t', hset', -⟩
      rw [hset] at hset'
      cases hset'
    · rintro (hfull | hdepot)
      · exact absurd hroom hfull
      · exact absurd rfl hdepot.1
  | some d =>
    obtain ⟨t₁, realtime, hs, hset⟩ := set_new alloc value hfind hroom hdef
    cases hname : alloc t.allocs with
    | false =>
      rw [if_neg (by simp [hname])] at hset
      constructor
      · rintro ⟨r, t', hset', -, -, hnamed⟩
        obtain ⟨t'', happend, heq⟩ := bind_eq_some_iff.1 (hset.symm.trans hset')
        cases heq
        obtain ⟨q, hq, hnone⟩ := append_unnamed rfl happend
        exact absurd hnone (hnamed q hq)
      · rintro (hfull | hdepot)
        · exact absurd hroom hfull
        · cases hdepot.2.1
    | true =>
      rw [if_pos hname] at hset
      have hfield := copied_or_not (alloc (t.allocs + 1)) value
      generalize (if alloc (t.allocs + 1) then some value else none) = v at hset hfield
      obtain ⟨k, t', happend, h', -, hentries, -⟩ := (hs.wellFormed h).append
        (p := ⟨some name, v, false, realtime, some d⟩)
        rfl ⟨d, rfl⟩ (by rw [hs.entries]; exact hnew) (by rw [hs.pnum]; exact hroom.1)
      rw [happend, bind_some] at hset
      have hmem : ⟨some name, v, false, realtime, some d⟩ ∈ t'.entries := by
        rw [hentries, mem_insert_iff]
        exact .inl rfl
      have hlocal : ¬(d.type = .java ∧ realtime = true) := fun hjava => hplain d hdef hjava.1
      rw [truthful_set_iff h' hset, h'.yields_iff hmem (key_of_name rfl) rfl hlocal
        (hfield.symm.imp And.right And.right)]
      rcases hfield with ⟨hcopied, hv⟩ | ⟨hcopied, hv⟩
      · simp [hcopied, hv]
      · simp [hcopied, hv, hroom]

/-- The result of `sw_parameter_set` can be relied on exactly if what has to be
copied can be copied. -/
theorem set_truthful_iff {name value : CString} (h : WellFormed t) (hplain : NotRealtime t name) :
    Truthful alloc t name value ↔ Affordable alloc t name value := by
  unfold NotRealtime at hplain
  unfold Affordable
  rcases h.find name with ⟨i, hfind, hi, hkey⟩ | ⟨hfind, hnew⟩
  · simp only [hfind] at hplain ⊢
    obtain ⟨d, hd⟩ := h.owned _ (t.mem_entries hi)
    exact truthful_found_iff h hfind hi hkey hd (hplain d hd)
  · simp only [hfind] at hplain ⊢
    exact truthful_new_iff h hfind hnew hplain

end

def pressed : Option (Bool × Table) :=
  swParameterRegisterDepot (fun _ => true) swParameterInit ⟨1, cstring [102], .file, false⟩ true
    [(cstring [97], some (cstring [49]))]

/-- A text of the same length is stored without the pool. -/
theorem set_truthful_iff_inPlace : ∃ t, pressed = some (true, t) ∧
    Truthful (fun _ => false) t (cstring [97]) (cstring [50]) := by
  have hall : pressed.map (fun r => (swParameterFind r.2 (cstring [97]), (r.2.plist 0).value,
      (r.2.plist 0).depot.map (·.type))) =
        some (some (some 0), some (cstring [49]), some .file) := by decide +kernel
  obtain ⟨t, hregister, hholds⟩ := register_holds (d := ⟨1, cstring [102], .file, false⟩)
    (fun _ => rfl : ∀ k, (fun _ => true : Alloc) k = true) rfl [(cstring [97], cstring [49])]
  refine ⟨t, hregister, ?_⟩
  rw [show pressed = some (true, t) from hregister] at hall
  simp only [map_some, some.injEq, Prod.mk.injEq] at hall
  obtain ⟨hfind, hvalue, htype⟩ := hall
  refine (set_truthful_iff hholds.wellFormed ?_).2 ?_
  · simp only [NotRealtime, hfind]
    intro d hd hjava
    rw [hd, map_some, hjava.1] at htype
    cases htype
  · simp only [Affordable, hfind]
    exact .inr (.inl ⟨_, hvalue, le_rfl⟩)

/-- A longer text that cannot be copied: the result is true, the old value is gone, and
`sw_parameter_get` with the file depot's `get` answers an empty text. -/
theorem failed_copy_is_success : ∃ t t' t'', pressed = some (true, t) ∧
    swParameterSet (fun _ => false) t (cstring [97]) (some (cstring [50, 50])) = some (true, t') ∧
    swParameterGet (fun _ => false) t' (cstring [97]) ⟨true, 16⟩ ⟨false, .empty⟩ =
      some (true, some .empty, t'') ∧ ¬Truthful (fun _ => false) t (cstring [97])
      (cstring [50, 50]) := by
  obtain ⟨t, hregister, t', hset, ⟨_, t''⟩, hget, rfl⟩ : ∃ t, pressed = some (true, t) ∧
      ∃ t', swParameterSet (fun _ => false) t (cstring [97]) (some (cstring [50, 50])) =
        some (true, t') ∧
      ∃ r, swParameterGet (fun _ => false) t' (cstring [97]) ⟨true, 16⟩ ⟨false, .empty⟩ =
        some (true, r) ∧ r.1 = some .empty := by decide +kernel
  refine ⟨t, t', t'', hregister, hset, hget, ?_⟩
  rintro ⟨r, t₁, hset', hyields, -⟩
  cases some.inj (hset.symm.trans hset')
  obtain ⟨t₂, hget'⟩ := hyields rfl ⟨true, 16⟩ ⟨false, .empty⟩ rfl (by decide)
  have heq := hget.symm.trans hget'
  simp only [some.injEq, Prod.mk.injEq] at heq
  exact absurd heq.2.1 (by decide)

end SwApi.Parameter
