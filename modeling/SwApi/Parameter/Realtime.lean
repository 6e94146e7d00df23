import SwApi.Parameter.Requests

/-! The callbacks of JAVA parameters in real time, which come behind the section: the index may lead
to another description by then. -/
namespace SwApi.Parameter
open Library Os List Option Function

def Place.waiting : Place → Option CString
  | .consult name _ _ _ => some name
  | _ => none

/-- A piece of work that shifts the description of `name`: an insertion or a deletion of a
name that sorts before it. -/
def Work.shifts (t : Table) (name : CString) : Work → Bool
  | .get m => swParameterFind t m == some none && CString.strcasecmp m name < 0
  | .set m _ _ => swParameterFind t m == some none && CString.strcasecmp m name < 0
  | .delete m => swParameterFind t m != some none && CString.strcasecmp m name < 0
  | .deleteAll =>
      t.entries.any fun p =>
        !p.readonly && p.depot == t.defdepot && CString.strcasecmp (p.name.getD .empty) name ≤ 0
  | _ => false

/-- No step shifts a description whose index a thread has in its hands. -/
def Careful (s : System) (a : Action) : Prop :=
  ∀ thread name, (s.place thread).waiting = some name → (a.work s).shifts s.table name = false

/-- The index leads to the description of the name, a JAVA parameter in real time of `owner`. -/
structure Aimed (t : Table) (name : CString) (i : Nat) (owner : Option Depot) (p : Para) :
    Prop where
  slot : t.entries[i]? = some p
  key : p.key = name.fold
  depot : p.depot = owner
  java : isJava owner = some true
  realtime : p.realtime = true

def Place.Aims (t : Table) : Place → Prop
  | .consult name i owner next => (∃ p, Aimed t name i owner p) ∧ next.waiting = none
  | _ => True

section
variable {m : CString} {depot : Option Depot}

section
variable (h : Aimed t name i owner p)
include h

theorem Aimed.lt : i < t.pnum := by
  obtain ⟨hi, -⟩ := List.getElem?_eq_some_iff.1 h.slot
  simpa using hi

theorem Aimed.plist : t.plist i = p :=
  some.inj ((t.entries_getElem? h.lt).symm.trans h.slot)

theorem Aimed.moved (hslot : t'.entries[i]? = t.entries[i]?) :
    Aimed t' name i owner p :=
  ⟨hslot.trans h.slot, h.key, h.depot, h.java, h.realtime⟩

theorem Aimed.handedOn : handedOn (t.plist i) false = some true := by
  rw [h.plist]
  simp [Parameter.handedOn, h.depot, h.java, h.realtime]

end

theorem Aimed.insert (hwf' : WellFormed t') (h : Aimed t name i owner p)
    (hk : k ≤ t.pnum) (hentries : t'.entries = t.entries.take k ++ q :: t.entries.drop k)
    (hq : q.key = m.fold) (hbehind : ¬m.fold < name.fold) : Aimed t' name i owner p := by
  have hlen : (t.entries.take k).length = k := by simpa using hk
  apply h.moved
  by_cases hik : i < k
  · rw [hentries, getElem?_append_left (by omega), getElem?_take_of_lt hik]
  · -- the description would be the one behind the new one, and sort behind it
    exfalso
    have hnext : t'.entries[i + 1]? = some p := by
      rw [hentries, getElem?_append_right (by omega), hlen, show i + 1 - k = i - k + 1 by omega,
        getElem?_cons_succ, getElem?_drop, show k + (i - k) = i by omega, h.slot]
    have hnew : t'.entries[k]? = some q := by
      rw [hentries, getElem?_append_right (by omega), hlen, Nat.sub_self, getElem?_cons_zero]
    have hpnum : i + 1 < t'.pnum := by
      obtain ⟨hi, -⟩ := List.getElem?_eq_some_iff.1 hnext
      simpa using hi
    have hlt := hwf'.key_lt (show k < i + 1 by omega) hpnum
    rw [t'.entries_getElem? hpnum] at hnext
    rw [t'.entries_getElem? (by omega)] at hnew
    rw [some.inj hnew, some.inj hnext, hq, h.key] at hlt
    exact hbehind hlt

theorem Aimed.set (halloc : ∀ k, alloc k = true) (hwf : WellFormed t) (hwf' : WellFormed t')
    (h : Aimed t name i owner p) (hshifts : (Work.set m value depot).shifts t name = false)
    (hset : swParameterSetWithDepot alloc t m value depot false false = some (r, t')) :
    Aimed t' name i owner p := by
  rcases set_inv hset with rfl | ⟨j, hfind, hwrite⟩ | ⟨hfind, hinsert⟩
  · exact h
  · have hji : j ≠ i := by
      rintro rfl
      exact absurd (hwrite.kept.symm.trans h.handedOn) (by decide)
    obtain ⟨q, d, hentries, -⟩ := hwrite.entries
    apply h.moved
    rw [hentries, getElem?_set_ne hji]
  · obtain ⟨k, q, d, hk, hentries, hq, -⟩ := hinsert.entries halloc hwf (hwf.find_new hfind)
    apply h.insert hwf' hk hentries (key_of_name hq)
    intro hlt
    simp [Work.shifts, hfind, CString.strcasecmp_neg_iff.2 hlt] at hshifts

theorem Aimed.delete (hwf : WellFormed t) (h : Aimed t name i owner p)
    (hshifts : (Work.delete m).shifts t name = false)
    (hdelete : swParameterDelete t m = some (r, t')) : Aimed t' name i owner p := by
  rcases delete_inv hdelete with rfl | ⟨j, d, hfind, hd, -, hjava, hentries, -⟩
  · exact h
  · obtain ⟨hj, hkey⟩ := hwf.find_lt hfind
    have hbehind : ¬m.fold < name.fold := by
      intro hlt
      simp [Work.shifts, hfind, CString.strcasecmp_neg_iff.2 hlt] at hshifts
    have hij : i < j := by
      rcases lt_trichotomy i j with hlt | heq | hlt
      · exact hlt
      · -- a JAVA parameter is not deleted
        subst heq
        have howner := h.java
        rw [h.plist] at hd
        rw [← h.depot, hd] at howner
        exact absurd (by simpa [isJava] using howner) hjava
      · have hkeys := hwf.key_lt hlt h.lt
        rw [hkey, h.plist, h.key] at hkeys
        exact absurd hkeys hbehind
    apply h.moved
    rw [hentries hj, getElem?_eraseIdx_of_lt hij]

theorem Aimed.deleteAll (hwf : WellFormed t) (h : Aimed t name i owner p)
    (hshifts : Work.deleteAll.shifts t name = false)
    (hdelete : swParameterDeleteAll t = some t') : Aimed t' name i owner p := by
  obtain ⟨d, hd, hentries, -⟩ := deleteAll_inv hdelete
  apply h.moved
  rw [hentries]
  apply filter_getElem?
  · intro k hk q hq
    have hkn : k < t.pnum := by have := h.lt; omega
    rw [t.entries_getElem? hkn] at hq
    cases hq
    have hle : CString.strcasecmp ((t.plist k).name.getD .empty) name ≤ 0 := by
      rw [← not_lt, CString.strcasecmp_pos_iff]
      have hkey : (t.plist k).key ≤ name.fold := by
        rcases Nat.lt_or_eq_of_le hk with hlt | rfl
        · have hkeys := hwf.key_lt hlt h.lt
          rw [h.plist, h.key] at hkeys
          exact hkeys.le
        · rw [h.plist, h.key]
      exact not_lt.2 hkey
    simp only [Work.shifts, hd, List.any_eq_false] at hshifts
    have hkeep := hshifts _ (t.mem_entries hkn)
    simpa [hle, imp_iff_not_or] using hkeep
  · simpa using h.lt

theorem Aimed.setValue (h : Aimed t name i owner p) (j : Nat) (v : Option CString) (n : Nat) :
    ∃ q, Aimed (t.setValue j v n) name i owner q := by
  have hentries : (t.setValue j v n).entries = t.entries.set j { t.plist j with value := v } :=
    cells_update ..
  by_cases hji : j = i
  · subst hji
    refine ⟨{ p with value := v }, ?_, h.key, h.depot, h.java, h.realtime⟩
    rw [hentries, h.plist, getElem?_set_self (by simpa using h.lt)]
  · refine ⟨p, h.moved ?_⟩
    rw [hentries, getElem?_set_ne hji]

theorem Aimed.get (halloc : ∀ k, alloc k = true) (hwf : WellFormed t)
    (h : Aimed t name i owner p) (hshifts : (Work.get m).shifts t name = false)
    (hget : swParameterGet alloc t m b reply = some (r, text, t')) :
    ∃ q, Aimed t' name i owner q := by
  rcases get_inv hget with ⟨j, -, hget⟩ | ⟨hfind, rfl | ⟨d, t₁, j, hd, hroom, happend, -, hget⟩⟩
  · obtain ⟨v, n, d, rfl, -⟩ := getAt_inv hget
    exact h.setValue j v n
  · exact ⟨p, h⟩
  · obtain ⟨v, n, d', rfl, -⟩ := getAt_inv hget
    simp only [halloc, if_true] at happend
    have hs := SameParas.attempts t (t.allocs + 1)
    obtain ⟨k, t₂, happend₂, hwf₂, hk, hentries, -⟩ := (hs.wellFormed hwf).append
      (p := ⟨some m, none, false, true, t.defdepot⟩) rfl ⟨d, hd⟩ (hwf.find_new hfind) hroom
    cases some.inj (happend.symm.trans happend₂)
    have hmoved : Aimed t₁ name i owner p := by
      apply h.insert hwf₂ hk hentries (key_of_name rfl)
      intro hlt
      simp [Work.shifts, hfind, CString.strcasecmp_neg_iff.2 hlt] at hshifts
    exact hmoved.setValue j v n

theorem Aimed.leaves {work : Work} (halloc : ∀ k, alloc k = true) (hwf : WellFormed t)
    (hdef : ∃ d, t.defdepot = some d) (h : Aimed t name i owner p)
    (hshifts : work.shifts t name = false) (hwork : work.Leaves alloc t t') :
    ∃ q, Aimed t' name i owner q := by
  obtain ⟨hwf', -⟩ := hwork.returns halloc hwf hdef
  have hattempts (n : Nat) : Aimed { t with allocs := n } name i owner p := h.moved rfl
  cases hwork with
  | attempts _ n => exact ⟨p, hattempts n⟩
  | get hget => exact h.get halloc hwf hshifts hget
  | set n hset =>
    have hs := SameParas.attempts t n
    exact ⟨p, (hattempts n).set halloc (hs.wellFormed hwf) hwf' hshifts hset⟩
  | delete hdelete => exact ⟨p, h.delete hwf hshifts hdelete⟩
  | deleteAll hdelete => exact ⟨p, h.deleteAll hwf hshifts hdelete⟩
  | save =>
    refine ⟨p, h.moved ?_⟩
    unfold swParameterSave
    split <;> rfl

end

section
variable {next : Place}

theorem Place.Aims.of_calm (h : next.waiting = none) : next.Aims t := by
  cases next with
  | consult name i owner next => cases h
  | idle | adding _ _ _ | rows _ _ => trivial

theorem aims_behind (hwf : WellFormed t) (hnext : next.waiting = none)
    (hfind : ∀ k, found = some k → swParameterFind t name = some (some k) ∧
      isJava (t.plist k).depot = some true ∧ (t.plist k).realtime = true) :
    (Place.behind t name next found).Aims t := by
  cases found with
  | none => exact .of_calm hnext
  | some k =>
    obtain ⟨hfound, hjava, hrealtime⟩ := hfind k rfl
    obtain ⟨hk, hkey⟩ := hwf.find_lt hfound
    exact ⟨⟨t.plist k, t.entries_getElem? hk, hkey, rfl, hjava, hrealtime⟩, hnext⟩

theorem setConsults_inv (h : setConsults t name value depot = some (some i)) :
    swParameterFind t name = some (some i) ∧ handedOn (t.plist i) false = some true := by
  obtain ⟨found, hfind, h⟩ := bind_eq_some_iff.1 h
  split at h
  · rename_i k v
    obtain ⟨locked, -, h⟩ := bind_eq_some_iff.1 h
    split at h
    · cases h
    · obtain ⟨lower, -, h⟩ := bind_eq_some_iff.1 h
      split at h
      · cases h
      · obtain ⟨java, hjava, h⟩ := bind_eq_some_iff.1 h
        cases java with
        | false => cases h
        | true =>
          cases some.inj (some.inj h)
          exact ⟨hfind, hjava⟩
  · cases h

theorem setSection_aims (hwf : WellFormed t) (hnext : next.waiting = none)
    (h : setSection alloc t name value depot next = some (place, t')) : place.Aims t' := by
  obtain ⟨found, r, hconsults, hset, rfl⟩ := setSection_inv h
  cases found with
  | none => exact .of_calm hnext
  | some i =>
    -- the set that is handed on leaves the table as it is
    rcases setConsults_eq hset with hnone | ⟨i', d, -, -, rfl⟩
    · cases hconsults.symm.trans hnone
    · obtain ⟨hfind, hjava⟩ := setConsults_inv hconsults
      obtain ⟨java, hj, hboth⟩ := bind_eq_some_iff.1 hjava
      obtain ⟨rfl, hrealtime⟩ := Bool.and_eq_true_iff.1 (some.inj hboth)
      apply aims_behind hwf hnext
      intro k hk
      cases hk
      exact ⟨hfind, hj, hrealtime⟩

theorem getSection_aims (hwf' : WellFormed t')
    (h : getSection alloc t name b reply = some (place, t')) : place.Aims t' := by
  obtain ⟨⟨r, text, t₁⟩, -, h⟩ := bind_eq_some_iff.1 h
  obtain ⟨found, hconsults, h⟩ := bind_eq_some_iff.1 h
  cases h
  apply aims_behind hwf' rfl
  intro k hk
  subst hk
  obtain ⟨found, hfind, hconsults⟩ := bind_eq_some_iff.1 hconsults
  cases found with
  | none => cases hconsults
  | some i =>
    obtain ⟨java, hjava, hconsults⟩ := bind_eq_some_iff.1 hconsults
    split at hconsults
    · rename_i hboth
      cases some.inj (some.inj hconsults)
      simp only [Bool.and_eq_true] at hboth
      exact ⟨hfind, hboth.1.1 ▸ hjava, hboth.1.2⟩
    · cases hconsults

theorem enter_aims (hwf : WellFormed t) (hwf' : WellFormed t')
    (h : enter alloc t request = some (place, t')) : place.Aims t' := by
  cases request with
  | get name b reply => exact getSection_aims hwf' h
  | set name value => exact setSection_aims hwf rfl h
  | add name value depotname =>
    simp only [enter] at h
    split at h
    · cases h
      trivial
    · cases h
      trivial
  | setGroup buf size =>
    cases h
    trivial
  | delete name =>
    obtain ⟨⟨r, t₁⟩, -, h⟩ := bind_eq_some_iff.1 h
    cases h
    trivial
  | deleteAll =>
    obtain ⟨t₁, -, h⟩ := bind_eq_some_iff.1 h
    cases h
    trivial
  | save =>
    cases h
    trivial

theorem rowSection_aims (hwf : WellFormed t)
    (h : rowSection alloc t text left = some (place, t')) : place.Aims t' := by
  unfold rowSection at h
  split at h
  · cases h
    trivial
  · dsimp only at h
    split at h
    · cases h
      trivial
    · split at h
      · cases h
        trivial
      · split at h
        · cases h
          trivial
        · have hs := SameParas.attempts t (t.allocs + 2)
          exact setSection_aims (hs.wellFormed hwf) rfl h

theorem proceed_aims (hwf : WellFormed t) (haims : place.Aims t)
    (h : proceed alloc t place = some (event, place', t')) :
    place'.Aims t' ∧ ∀ name owner d, event = .consulted name owner d → owner = some d := by
  cases place with
  | idle => cases h
  | adding name value d =>
    obtain ⟨⟨place, t₁⟩, hsection, h⟩ := bind_eq_some_iff.1 h
    cases h
    exact ⟨setSection_aims hwf rfl hsection, fun _ _ _ hevent => nomatch hevent⟩
  | rows text left =>
    obtain ⟨⟨place, t₁⟩, hsection, h⟩ := bind_eq_some_iff.1 h
    cases h
    exact ⟨rowSection_aims hwf hsection, fun _ _ _ hevent => nomatch hevent⟩
  | consult name i owner next =>
    obtain ⟨d, hd, h⟩ := bind_eq_some_iff.1 h
    cases h
    obtain ⟨⟨p, haimed⟩, hnext⟩ := haims
    refine ⟨.of_calm hnext, ?_⟩
    intro name' owner' d' hevent
    cases hevent
    rw [haimed.plist, haimed.depot] at hd
    exact hd

end

structure Aiming (s : System) : Prop where
  wellFormed : WellFormed s.table
  default : ∃ d, s.table.defdepot = some d
  aims : ∀ thread, (s.place thread).Aims s.table

theorem Aiming.work (halloc : ∀ k, alloc k = true) (h : Aiming s) {work : Work}
    (hcareful : ∀ u name, (s.place u).waiting = some name → work.shifts s.table name = false)
    (hwork : work.Leaves alloc s.table s'.table) (hplace : place.Aims s'.table)
    (hs' : s'.place = update s.place thread place) : Aiming s' := by
  obtain ⟨hwf, -, hdef⟩ := hwork.returns halloc h.wellFormed h.default
  refine ⟨hwf, by rw [hdef]; exact h.default, ?_⟩
  intro u
  rw [hs']
  by_cases hu : u = thread
  · rw [hu, update_self]
    exact hplace
  · rw [update_of_ne hu]
    have haims := h.aims u
    cases hold : s.place u with
    | consult name i owner next =>
      rw [hold] at haims
      obtain ⟨⟨p, haimed⟩, hnext⟩ := haims
      have hshifts := hcareful u name (by rw [hold]; rfl)
      exact ⟨haimed.leaves halloc h.wellFormed h.default hshifts hwork, hnext⟩
    | idle | adding _ _ _ | rows _ _ => trivial

theorem saver_same (hproc : paramSaveProc s = some s') : SameParas s.table s'.table ∧
    s'.place = s.place := by
  unfold paramSaveProc at hproc
  split at hproc
  · obtain ⟨⟨r, signal⟩, -, hproc⟩ := bind_eq_some_iff.1 hproc
    cases hproc
    exact ⟨⟨rfl, rfl, rfl, rfl⟩, rfl⟩
  · obtain ⟨⟨r, signal⟩, -, hproc⟩ := bind_eq_some_iff.1 hproc
    cases hproc
    exact ⟨⟨rfl, rfl, rfl, rfl⟩, rfl⟩
  · cases hproc
    exact ⟨(saveSection_same s).1, (saveSection_same s).2.1⟩

theorem Aiming.saver (h : Aiming s) (hproc : paramSaveProc s = some s') : Aiming s' := by
  obtain ⟨hs, hplace⟩ := saver_same hproc
  refine ⟨hs.wellFormed h.wellFormed, by rw [hs.defdepot]; exact h.default, ?_⟩
  intro u
  rw [hplace]
  have haims := h.aims u
  cases hold : s.place u with
  | consult name i owner next =>
    rw [hold] at haims
    obtain ⟨⟨p, haimed⟩, hnext⟩ := haims
    exact ⟨⟨p, haimed.moved (by rw [hs.entries])⟩, hnext⟩
  | idle | adding _ _ _ | rows _ _ => trivial

theorem Aiming.step (halloc : ∀ k, alloc k = true) (h : Aiming s) (hcareful : Careful s a)
    (hstep : step alloc s a = some (event, s')) :
    Aiming s' ∧ ∀ name owner d, event = .consulted name owner d → owner = some d := by
  cases step_inv hstep with
  | call hidle henter =>
    have hwork := enter_leaves henter
    obtain ⟨hwf', -⟩ := hwork.returns halloc h.wellFormed h.default
    refine ⟨?_, fun _ _ _ hevent => nomatch hevent⟩
    exact h.work halloc hcareful hwork (enter_aims h.wellFormed hwf' henter) rfl
  | @advance thread event place t hproceed =>
    obtain ⟨hplace, hevent⟩ := proceed_aims h.wellFormed (h.aims thread) hproceed
    exact ⟨h.work halloc hcareful (proceed_leaves hproceed) hplace rfl, hevent⟩
  | saver hproc => exact ⟨h.saver hproc, fun _ _ _ hevent => nomatch hevent⟩

/-- As long as nobody inserts or deletes a name that sorts before one whose index is in use,
every callback goes to the depot that owned the parameter when it was looked up. -/
theorem run_consultsOwner {alloc : Alloc} {t : Table} {history : List (Action × Event)} {s : System}
    {a : Action} {name : CString} {owner : Option Depot} {d : Depot}
    (halloc : ∀ k, alloc k = true) (hsetup : SetUp alloc t)
    (hrun : Run (step alloc) Careful (.start t) history s)
    (hevent : (a, .consulted name owner d) ∈ history) : owner = some d := by
  have hready := hsetup.ready halloc
  have hinv : Aiming s ∧ ∀ e ∈ history, ∀ name owner d, e.2 = .consulted name owner d →
    owner = some d := by
    apply Run.invariant (fun history s => Aiming s ∧
      ∀ e ∈ history, ∀ name owner d, e.2 = .consulted name owner d → owner = some d) _ _ hrun
    · exact ⟨⟨hready.wellFormed, hready.hasDefault hsetup.depots, fun _ => trivial⟩,
        fun e he => nomatch he⟩
    · intro history s a event s' h hcareful hstep
      obtain ⟨haiming, hright⟩ := h.1.step halloc hcareful hstep
      refine ⟨haiming, ?_⟩
      exact forall_mem_append.2 ⟨h.2, forall_mem_singleton.2 hright⟩
  exact hinv.2 _ hevent name owner d rfl

def carefulAmong (n : Nat) (s : System) (a : Action) : Bool :=
  (match a with
    | .call thread _ => thread < n
    | .advance thread => thread < n
    | .saver => false) &&
    (range n).all fun u => ((s.place u).waiting).all fun name => !(a.work s).shifts s.table name

theorem careful_of_among (hrun : Run (step alloc) (fun s a => carefulAmong n s a = true)
    (.start t) history s) : Run (step alloc) Careful (.start t) history s := by
  apply And.left
  apply hrun.reguard (fun s => ∀ u, n ≤ u → s.place u = .idle)
  · intro u _
    rfl
  · intro s a event s' hidle hamong hstep u hu
    have hthread := (Bool.and_eq_true_iff.1 hamong).1
    cases step_inv hstep with
    | @call thread _ _ _ _ _ | @advance thread _ _ _ _ =>
      have hne : u ≠ thread := by
        have : thread < n := of_decide_eq_true hthread
        omega
      exact (update_of_ne hne _ _).trans (hidle u hu)
    | saver _ => cases hthread
  · intro s a hidle hamong u name hwaiting
    by_cases hu : u < n
    · have hall := all_eq_true.1 (Bool.and_eq_true_iff.1 hamong).2 u (mem_range.2 hu)
      rw [hwaiting] at hall
      simpa using hall
    · rw [hidle u (by omega)] at hwaiting
      cases hwaiting

def javaDepot : Depot := ⟨3, cstring [106], .java, false⟩
def plainDepot : Depot := ⟨4, cstring [102], .file, false⟩

/-- Between the lookup of `b` and its callback another thread inserts `c`. -/
theorem run_consultsOwner_behind : ∃ (t : Table) (history : List (Action × Event)) (s : System)
    (a : Action) (d : Depot), SetUp (fun _ => true) t ∧
    Run (step fun _ => true) Careful (.start t) history s ∧
      (a, .consulted (cstring [98]) (some javaDepot) d) ∈ history ∧ some javaDepot = some d := by
  obtain ⟨t, history, s, hsetup, he, hevent⟩ := exists_setUp
    [.register plainDepot true [], .register javaDepot false [(cstring [98], none)]]
    (fun s a => carefulAmong 3 s a = true)
    [.call 1 (.get (cstring [98]) ⟨true, 16⟩ ⟨true, cstring [49]⟩),
      .call 2 (.set (cstring [99]) (some (cstring [50]))), .advance 1]
    (fun _ history _ => .consulted (cstring [98]) (some javaDepot) javaDepot ∈ history.map Prod.snd)
    (by decide +kernel)
  obtain ⟨⟨a, event⟩, hmem, rfl⟩ := mem_map.1 hevent
  have hrun := careful_of_among (.of_exec he)
  exact ⟨t, history, s, a, javaDepot, hsetup, hrun, hmem,
    run_consultsOwner (fun _ => rfl) hsetup hrun hmem⟩

/-- Between the lookup of `b` and its callback another thread inserts `a`: slot 0, where `b`
was found, belongs to the file depot now, and its callback is called for `b`. -/
theorem callback_of_another_depot : ∃ (t : Table) (history : List (Action × Event)) (s : System)
    (a : Action), SetUp (fun _ => true) t ∧ exec (step fun _ => true) (fun _ _ => True) (.start t)
        [.call 1 (.get (cstring [98]) ⟨true, 16⟩ ⟨true, cstring [49]⟩),
         .call 2 (.set (cstring [97]) (some (cstring [50]))), .advance 1] = some (history, s) ∧
      (a, .consulted (cstring [98]) (some javaDepot) plainDepot) ∈ history ∧
      some javaDepot ≠ some plainDepot := by
  obtain ⟨t, history, s, hsetup, he, hevent⟩ := exists_setUp
    [.register plainDepot true [], .register javaDepot false [(cstring [98], none)]]
      (fun _ _ => True)
    [.call 1 (.get (cstring [98]) ⟨true, 16⟩ ⟨true, cstring [49]⟩),
      .call 2 (.set (cstring [97]) (some (cstring [50]))), .advance 1]
    (fun _ history _ => .consulted (cstring [98]) (some javaDepot) plainDepot ∈ history.map
      Prod.snd)
    (by decide +kernel)
  obtain ⟨⟨a, event⟩, hmem, rfl⟩ := mem_map.1 hevent
  exact ⟨t, history, s, a, hsetup, he, hmem, by decide⟩

end SwApi.Parameter
