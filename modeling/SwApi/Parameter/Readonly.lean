import SwApi.Parameter.Sections

/-! A read-only parameter of a file depot that has a value keeps it, whatever is called. -/
namespace SwApi.Parameter
open Library Option

structure Operable (t : Table) : Prop where
  wellFormed : WellFormed t
  default : ∃ d, t.defdepot = some d

def Spares (t : Table) (result : Option (Bool × Table)) : Prop :=
  ∃ r t', result = some (r, t') ∧ Operable t' ∧ Keeps t t'

theorem Operable.same (h : Operable t) (hs : SameParas t t') : Operable t' :=
  ⟨hs.wellFormed h.wellFormed, by rw [hs.defdepot]; exact h.default⟩

theorem Spared.spares (h : Spared t result) (ht : Operable t) : Spares t result := by
  obtain ⟨⟨r, t', heq, hwf, -, hdef⟩, hkeeps⟩ := h
  exact ⟨r, t', heq, ⟨hwf, by rw [hdef]; exact ht.default⟩, hkeeps r t' heq⟩

theorem Spares.trans (hkeeps : Keeps t t') (h : Spares t' result) : Spares t result := by
  obtain ⟨r, t'', heq, hop, hkeeps'⟩ := h
  exact ⟨r, t'', heq, hop, hkeeps.trans hkeeps'⟩

section
variable {alloc : Alloc} (halloc : ∀ k, alloc k = true)
include halloc

theorem Operable.setWithDepot (h : Operable t) (name : CString)
    (value : Option CString) (depot : Option Depot) (isLoad onlyDefault : Bool) :
    Spares t (swParameterSetWithDepot alloc t name value depot isLoad onlyDefault) :=
  (h.wellFormed.setWithDepot halloc h.default name value depot isLoad onlyDefault).spares h

theorem Operable.setAll (depot : Option Depot) (isLoad : Bool)
    (loaded : List (CString × Option CString)) (h : Operable t) :
    ∃ t', setAll alloc depot isLoad t loaded = some t' ∧ Operable t' ∧ Keeps t t' := by
  obtain ⟨t', hset, h', hdef, hkeeps⟩ := h.wellFormed.setAll halloc depot isLoad loaded h.default
  exact ⟨t', hset, ⟨h', hdef ▸ h.default⟩, hkeeps⟩

theorem Operable.groupLoop (onlyDefault : Bool) (fuel : Nat)
    (text : Bytes) (left num : Nat) (h : Operable t) :
    ∃ num' t', groupLoop alloc onlyDefault fuel text left num t = some (num', t') ∧ Operable t' ∧
      Keeps t t' := by
  induction fuel generalizing text left num t with
  | zero => exact ⟨num, t, rfl, h, .refl t⟩
  | succ fuel ih =>
    rw [Parameter.groupLoop]
    split
    · exact ⟨num, t, rfl, h, .refl t⟩
    dsimp only
    split
    · exact ih _ _ _ h
    rename_i name value _
    simp only [halloc, Bool.not_true, Bool.false_eq_true, if_false]
    have hs := SameParas.attempts t (t.allocs + 2)
    have hset : Spares t (groupSet alloc { t with allocs := t.allocs + 2 } onlyDefault name
      value) := by
      rw [groupSet]
      split <;> exact .trans (.same hs) ((h.same hs).setWithDepot halloc ..)
    obtain ⟨r, t₁, hset, h₁, hkeeps₁⟩ := hset
    obtain ⟨num', t₂, hrest, h₂, hkeeps₂⟩ := ih _ _ _ h₁
    refine ⟨num', t₂, ?_, h₂, hkeeps₁.trans hkeeps₂⟩
    rw [hset]
    exact hrest

theorem Operable.groupUpdate (h : Operable t) (buf : CString)
    (size : Int) (onlyDefault : Bool) : Spares t
    (groupParameterUpdate alloc t buf size onlyDefault) := by
  obtain ⟨num, t', hloop, h', hkeeps⟩ := h.groupLoop halloc onlyDefault
    (min size buf.strlen).toNat buf.bytes (min size buf.strlen).toNat 0
  refine ⟨0 < num, t', ?_, h', hkeeps⟩
  rw [groupParameterUpdate]
  simp [hloop]

end

theorem attempts_refreshValue (alloc : Alloc) (t : Table) (old : Option CString) (text : CString) :
    Attempts t (refreshValue alloc t old text) := by
  unfold refreshValue
  split
  · exact attempts_none t none
  · split
    · exact attempts_none t old
    · exact attempts_strdup alloc t text

theorem Operable.refreshLoop (alloc : Alloc) (reply : Nat → CString) (left i : Nat)
    (hi : i + left ≤ t.pnum)
    (h : Operable t) : ∃ t', refreshLoop alloc reply left i t = some t' ∧ Operable t' ∧
    Keeps t t' := by
  induction left generalizing i t with
  | zero => exact ⟨t, rfl, h, .refl t⟩
  | succ left ih =>
    obtain ⟨d, hd⟩ := h.wellFormed.owned _ (t.mem_entries (i := i) (by omega))
    rw [Parameter.refreshLoop]
    simp only [isJava_eq hd, bind_eq_bind, bind_some]
    split
    · rename_i hjava
      have hs := (attempts_refreshValue alloc t (t.plist i).value (reply i)).same
      generalize refreshValue alloc t (t.plist i).value (reply i) = fresh at hs
      obtain ⟨v, t₁⟩ := fresh
      dsimp only at hs ⊢
      have hwf : WellFormed (t₁.setPara i { t.plist i with value := v }) :=
        (h.same hs).wellFormed.setPara (by rw [hs.pnum]; omega) (by rw [hs.plist]) ⟨d, hd⟩
      have hkeeps : Keeps t (t₁.setPara i { t.plist i with value := v }) := by
        refine (Keeps.same hs).trans (Keeps.setPara ?_)
        intro hlocked
        rw [hs.plist] at hlocked
        obtain ⟨d', hd', hfile⟩ := hlocked.file
        cases some.inj (hd.symm.trans hd')
        simp [hfile] at hjava
      obtain ⟨t₂, hrest, h₂, hkeeps₂⟩ := ih (t := t₁.setPara i { t.plist i with value := v })
        (i + 1) (by change i + 1 + left ≤ t₁.pnum; rw [hs.pnum]; omega) ⟨hwf, (h.same hs).default⟩
      exact ⟨t₂, hrest, h₂, hkeeps.trans hkeeps₂⟩
    · exact ih (i + 1) (by omega) h

theorem Operable.register (halloc : ∀ k, alloc k = true) (h : Operable t) (d : Depot)
    (isdefault : Bool) (loaded : List (CString × Option CString)) :
    Spares t (swParameterRegisterDepot alloc t d isdefault loaded) := by
  obtain ⟨r, t', heq, hwf, hkeeps, rfl | hdef⟩ := h.wellFormed.register halloc d isdefault loaded
  · exact ⟨r, _, heq, h, hkeeps⟩
  · exact ⟨r, t', heq, ⟨hwf, hdef⟩, hkeeps⟩

theorem Operable.call (halloc : ∀ k, alloc k = true) (h : Operable t) (c : Call) :
    Spares t (call alloc t c) := by
  cases c with
  | set name value => exact h.setWithDepot halloc name value none false false
  | setInt name value => exact h.setWithDepot halloc name _ none false false
  | setGroup buf size => exact h.groupUpdate halloc buf size false
  | setGroupDefault buf size => exact h.groupUpdate halloc buf size true
  | setDefault name value depot => exact h.setWithDepot halloc name value depot true true
  | add name value depotname =>
    simp only [Parameter.call, swParameterAdd]
    split
    · exact ⟨false, t, rfl, h, .refl t⟩
    · rename_i d _
      obtain ⟨r, t', hset, h', hkeeps⟩ := h.setWithDepot halloc name value (some d) false false
      rw [hset]
      exact ⟨true, t', rfl, h', hkeeps⟩
  | delete name => exact (h.wellFormed.delete name).spares h
  | deleteAll => exact (h.wellFormed.deleteAll h.default).spares h
  | register d isdefault loaded => exact h.register halloc d isdefault loaded
  | updatefrom loaded =>
    cases loaded with
    | none => exact ⟨false, t, rfl, h, .refl t⟩
    | some loaded =>
      obtain ⟨t', hset, h', hkeeps⟩ := h.setAll halloc none false loaded
      refine ⟨true, t', ?_, h', hkeeps⟩
      simp only [Parameter.call, swParameterUpdatefromDepot, updateAll, hset, bind_eq_bind,
        bind_some]
  | refresh reply =>
    obtain ⟨t', hrefresh, h', hkeeps⟩ := h.refreshLoop alloc reply t.pnum 0 (by omega)
    refine ⟨true, t', ?_, h', hkeeps⟩
    simp only [Parameter.call, swParameterRefresh, hrefresh, map_some]
  | setRealtime name realtime =>
    exact (h.wellFormed.setRealtime halloc h.default name realtime).spares h
  | get name b reply => exact (h.wellFormed.get halloc h.default name b reply).spares h

theorem Operable.callAll (halloc : ∀ k, alloc k = true) (calls : List Call) (h : Operable t) :
    ∃ t', callAll alloc t calls = some t' ∧ Operable t' ∧ Keeps t t' := by
  induction calls generalizing t with
  | nil => exact ⟨t, rfl, h, .refl t⟩
  | cons c rest ih =>
    obtain ⟨r, t₁, hcall, h₁, hkeeps₁⟩ := h.call halloc c
    obtain ⟨t₂, hrest, h₂, hkeeps₂⟩ := ih h₁
    refine ⟨t₂, ?_, h₂, hkeeps₁.trans hkeeps₂⟩
    rw [Parameter.callAll, hcall]
    exact hrest

/-- After every sequence of calls, a read-only parameter of a file depot that had a value is found
with that value and that owner. -/
theorem callAll_readonly (halloc : ∀ k, alloc k = true) (h : Operable t) {value : CString}
    {d : Depot}
    (hfind : swParameterFind t name = some (some i)) (hreadonly : (t.plist i).readonly = true)
    (hvalue : (t.plist i).value = some value) (hdepot : (t.plist i).depot = some d)
    (hfile : d.type = .file) (calls : List Call) :
    ∃ t' i', callAll alloc t calls = some t' ∧ swParameterFind t' name = some (some i') ∧
      (t'.plist i').name = (t.plist i).name ∧ (t'.plist i').value = some value ∧
      (t'.plist i').depot = some d ∧ (t'.plist i').readonly = true := by
  obtain ⟨t', hcalls, h', hkeeps⟩ := h.callAll halloc calls
  obtain ⟨hi, hkey⟩ := h.wellFormed.find_lt hfind
  have hlocked : Locked (t.plist i) := by
    refine ⟨hreadonly, ?_, d, hdepot, hfile⟩
    rw [hvalue]
    exact some_ne_none value
  obtain ⟨p, hp, hretains⟩ := hkeeps _ (t.mem_entries hi) hlocked
  have hkey' : p.key = name.fold := by
    rw [← hkey, Para.key, Para.key, hretains.name]
  obtain ⟨i', hfind', -, rfl⟩ := h'.wellFormed.find_mem hp hkey'
  refine ⟨t', i', hcalls, hfind', hretains.name, ?_, ?_, ?_⟩
  · rw [hretains.value, hvalue]
  · rw [hretains.depot, hdepot]
  · rw [hretains.readonly, hreadonly]

def lockedTable : Option Table := do
  let (_, t) ← perform (fun _ => true) swParameterInit (.register (swIfiledepotOpen 1) true [])
  let (_, t) ← perform (fun _ => true) t (.updateWithDepot (cstring [97]) (some (cstring [49]))
    true false (some (swIfiledepotOpen 1)) .empty)
  some t

/-- Settings, a group `"a=2\nB : 3"`, a depot of a higher level and both deletions. -/
theorem callAll_readonly_group : ∃ t t' i, lockedTable = some t ∧
    callAll (fun _ => true) t [.set (cstring [65]) (some (cstring [50])),
      .setGroup (cstring [97, 61, 50, 10, 66, 32, 58, 32, 51]) 9,
      .register ⟨2, cstring [101], .e2prom, false⟩ true [(cstring [97], some .empty)],
      .delete (cstring [97]), .deleteAll, .refresh fun _ => .empty] = some t' ∧
    swParameterFind t' (cstring [65]) = some (some i) ∧
    (t'.plist i).value = some (cstring [49]) ∧ (t'.plist i).depot = some (swIfiledepotOpen 1) := by
  have hall : lockedTable.map (fun t => (swParameterFind t (cstring [65]), t.defdepot, t.plist 0)) =
      some (some (some 0), some (swIfiledepotOpen 1),
        ⟨some (cstring [97]), some (cstring [49]), true, false,
        some (swIfiledepotOpen 1)⟩) := by decide +kernel
  obtain ⟨t, ht, hvalues⟩ := map_eq_some_iff.1 hall
  simp only [Prod.mk.injEq] at hvalues
  obtain ⟨hfind, hdefault, hpara⟩ := hvalues
  have hoperable : Operable t := by
    rw [lockedTable] at ht
    obtain ⟨⟨r₁, t₁⟩, hregister, hupdate⟩ := bind_eq_some_iff.1 ht
    obtain ⟨⟨r₂, t₂⟩, hupdate, heq⟩ := bind_eq_some_iff.1 hupdate
    cases heq
    obtain ⟨_, _, hregister', h₁⟩ := ready_init.register (fun _ => rfl) (swIfiledepotOpen 1) true []
    cases some.inj (hregister.symm.trans hregister')
    obtain ⟨_, _, hupdate', hwf, -⟩ := h₁.wellFormed.updateWithDepot (fun _ => rfl) (cstring [97])
      (some (cstring [49])) true false (some (swIfiledepotOpen 1)) .empty
    cases some.inj (hupdate.symm.trans hupdate')
    exact ⟨hwf, _, hdefault⟩
  obtain ⟨t', i, hcalls, hfind', -, hvalue, hdepot, -⟩ := callAll_readonly (fun _ => rfl) hoperable
    hfind (by rw [hpara]) (by rw [hpara]) (by rw [hpara]) rfl _
  exact ⟨t, t', i, ht, hcalls, hfind', hvalue, hdepot⟩

end SwApi.Parameter
