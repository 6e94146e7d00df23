import SwApi.Library.Transition
import SwApi.Parameter.Calls

/-! Any number of threads that call `swparameter.c`, and its own thread that saves. What a
call does between `sw_mutex_lock` and `sw_mutex_unlock` is one step, and so is every wait for
the signal. The callback of a JAVA parameter in real time comes behind the section in which
its index was found. -/
namespace SwApi.Parameter
open Library Os Option Function

/-- What a caller does next. `owner` is the depot that the parameter had when its index was
found; the source does not keep it. -/
inductive Place where
  | idle
  | adding (name : CString) (value : Option CString) (d : Depot)
  | rows (text : Bytes) (left : Nat)
  | consult (name : CString) (i : Nat) (owner : Option Depot) (next : Place)
deriving DecidableEq

/-- A caller that leaves its section with an index goes on to the depot of that index. -/
def Place.behind (t : Table) (name : CString) (next : Place) : Option Nat → Place
  | none => next
  | some i => .consult name i (t.plist i).depot next

/-- The index with which a set leaves its section: that of a JAVA parameter in real time. -/
def setConsults (t : Table) (name : CString) (value : Option CString) (depot : Option Depot) :
    Option (Option Nat) := do
  match ← swParameterFind t name, value with
  | some i, some _ => do
      let p := t.plist i
      let locked ← writeProtected p
      if locked then some none
      else do
        let lower ← notRaised p depot
        if lower then some none
        else do
          let java ← handedOn p false
          some (if java then some i else none)
  | _, _ => some none

def getConsults (t : Table) (name : CString) : Option (Option Nat) := do
  match ← swParameterFind t name with
  | none => some none
  | some i => do
      let p := t.plist i
      let java ← isJava p.depot
      some (if java && p.realtime && !p.readonly then some i else none)

def setSection (alloc : Alloc) (t : Table) (name : CString) (value : Option CString)
    (depot : Option Depot) (next : Place) : Option (Place × Table) := do
  let i ← setConsults t name value depot
  let (_, t) ← swParameterSetWithDepot alloc t name value depot false false
  some (.behind t name next i, t)

def getSection (alloc : Alloc) (t : Table) (name : CString) (b : Buffer) (reply : Reply) :
    Option (Place × Table) := do
  let (_, _, t) ← swParameterGet alloc t name b reply
  let i ← getConsults t name
  some (.behind t name .idle i, t)

def rowSection (alloc : Alloc) (t : Table) (text : Bytes) (left : Nat) : Option (Place × Table) :=
  if left = 0 then some (.idle, t)
  else
    let line := (text.dropWhile isBlank).takeWhile fun c => !isLineEnd c
    let taken := (text.takeWhile isBlank).length + line.length + 1
    let next := Place.rows (text.drop taken) (left - taken)
    match groupRow line with
    | none => some (next, t)
    | some (name, value) =>
        if !alloc t.allocs then some (.idle, { t with allocs := t.allocs + 1 })
        else if !alloc (t.allocs + 1) then some (.idle, { t with allocs := t.allocs + 2 })
        else setSection alloc { t with allocs := t.allocs + 2 } name (some value) none next

def swParameterSave (t : Table) (saveall : Bool) : Bool × Table :=
  if t.depots.any t.modified then (true, { t with signal := swSignalGive t.signal })
  else (saveall, t)

inductive Saver where
  | firstWait
  | quietWait
  | timedOut
deriving DecidableEq

/-- The table with the rest of the manager. `saved` is what a depot was last given to save. -/
structure System where
  table : Table
  saveall : Bool
  saver : Saver
  saved : Depot → Option (List Para)
  place : Nat → Place

inductive Request where
  | get (name : CString) (b : Buffer) (reply : Reply)
  | set (name : CString) (value : Option CString)
  | add (name : CString) (value depotname : Option CString)
  | setGroup (buf : CString) (size : Int)
  | delete (name : CString)
  | deleteAll
  | save

inductive Action where
  | call (thread : Nat) (r : Request)
  | advance (thread : Nat)
  | saver

inductive Event where
  | quiet
  | consulted (name : CString) (owner : Option Depot) (d : Depot)
deriving DecidableEq

def enter (alloc : Alloc) (t : Table) : Request → Option (Place × Table)
  | .get name b reply => getSection alloc t name b reply
  | .set name value => setSection alloc t name value none .idle
  | .add name value depotname =>
      match depotFindByname t depotname with
      | none => some (.idle, t)
      | some d => some (.adding name value d, t)
  | .setGroup buf size => some (.rows buf.bytes (min size buf.strlen).toNat, t)
  | .delete name => do
      let (_, t) ← swParameterDelete t name
      some (.idle, t)
  | .deleteAll => do
      let t ← swParameterDeleteAll t
      some (.idle, t)
  | .save => some (.idle, (swParameterSave t false).2)

/-- The later parts of a call. Behind a section the slot is read again. -/
def proceed (alloc : Alloc) (t : Table) : Place → Option (Event × Place × Table)
  | .idle => none
  | .adding name value d => do
      let (next, t) ← setSection alloc t name value (some d) .idle
      some (.quiet, next, t)
  | .rows text left => do
      let (next, t) ← rowSection alloc t text left
      some (.quiet, next, t)
  | .consult name i owner next => do
      let d ← (t.plist i).depot
      some (.consulted name owner d, next, t)

def saveLoop (chosen : Depot → Bool) : List Depot → System → System
  | [], s => s
  | d :: rest, s =>
      saveLoop chosen rest
        (if s.table.modified d && chosen d then
          { s with
            table := { s.table with modified := update s.table.modified d false }
            saved := update s.saved d (some (gatherAll s.table d (s.table.pnum + 1) 0)) }
        else s)

def saveSection (s : System) : System :=
  if s.saveall then
    let s := saveLoop (fun _ => true) s.table.depots s
    { s with saveall := false, table := { s.table with saveauto := false } }
  else if s.table.saveauto then
    let s := saveLoop (fun d => d.autosave) s.table.depots s
    { s with table := { s.table with saveauto := false } }
  else s

def saveTimeout : Int := 300

def paramSaveProc (s : System) : Option System :=
  match s.saver with
  | .firstWait => do
      let (_, signal) ← swSignalWait s.table.signal (-1)
      some { s with table := { s.table with signal }, saver := .quietWait }
  | .quietWait => do
      let (result, signal) ← swSignalWait s.table.signal saveTimeout
      some { s with
        table := { s.table with signal }
        saver := if result = 0 then .quietWait else .timedOut }
  | .timedOut => some { saveSection s with saver := .firstWait }

def Request.saveall (t : Table) (old : Bool) : Request → Bool
  | .save => (swParameterSave t old).1
  | _ => old

def step (alloc : Alloc) (s : System) : Action → Option (Event × System)
  | .call thread r =>
      match s.place thread with
      | .idle => do
          let (place, table) ← enter alloc s.table r
          some (.quiet, { s with
            table, saveall := r.saveall s.table s.saveall
            place := update s.place thread place })
      | _ => none
  | .advance thread => do
      let (event, place, table) ← proceed alloc s.table (s.place thread)
      some (event, { s with table, place := update s.place thread place })
  | .saver => do
      let s ← paramSaveProc s
      some (.quiet, s)

def System.start (t : Table) : System := ⟨t, false, .firstWait, fun _ => none, fun _ => .idle⟩

/-! ### A call without interference

The calls one after another are the runs in which one thread moves. -/

/-- What a call that is not disturbed leaves of the table. -/
def Request.serve (alloc : Alloc) (t : Table) : Request → Option Table
  | .get name b reply => (swParameterGet alloc t name b reply).map fun r => r.2.2
  | .set name value => (swParameterSet alloc t name value).map Prod.snd
  | .add name value depotname => (swParameterAdd alloc t name value depotname).map Prod.snd
  | .setGroup buf size => (swParameterSetGroup alloc t buf size).map Prod.snd
  | .delete name => (swParameterDelete t name).map Prod.snd
  | .deleteAll => swParameterDeleteAll t
  | .save => some (swParameterSave t false).2

/-- A caller can go on from place to place, with the tables that belong to them, until it is
idle. -/
inductive Ends (alloc : Alloc) : Place → Table → Table → Prop where
  | idle {t} : Ends alloc .idle t t
  | next {place place' t t' t'' event} (h : proceed alloc t place = some (event, place', t'))
      (hends : Ends alloc place' t' t'') : Ends alloc place t t''

section
variable {t : Table}

theorem Ends.quiet (h : proceed alloc t place = some (.quiet, place', t'))
    (hends : Ends alloc place' t' t'') : Ends alloc place t t'' :=
  .next h hends

theorem setConsults_eq (h : swParameterSetWithDepot alloc t name value depot false false =
    some (r, t')) : setConsults t name value depot = some none ∨
      ∃ i d, setConsults t name value depot = some (some i) ∧ (t.plist i).depot = some d ∧
      t' = t := by
  unfold swParameterSetWithDepot at h
  unfold setConsults
  obtain ⟨found, hfind, h⟩ := bind_eq_some_iff.1 h
  simp only [hfind, bind_eq_bind, bind_some]
  cases found with
  | none => exact .inl rfl
  | some i =>
    cases value with
    | none => exact .inl rfl
    | some value =>
      obtain ⟨locked, hlocked, h⟩ := bind_eq_some_iff.1 h
      dsimp only
      rw [hlocked, bind_some]
      cases locked with
      | true => exact .inl rfl
      | false =>
        obtain ⟨lower, hlower, h⟩ := bind_eq_some_iff.1 h
        rw [hlower]
        cases lower with
        | true => exact .inl rfl
        | false =>
          obtain ⟨java, hjava, h⟩ := bind_eq_some_iff.1 h
          rw [hjava]
          cases java with
          | false => exact .inl rfl
          | true =>
            obtain ⟨b, hb, -⟩ := bind_eq_some_iff.1 hjava
            obtain ⟨d, hd, -⟩ := map_eq_some_iff.1 hb
            cases h
            exact .inr ⟨i, d, rfl, hd, rfl⟩

theorem Ends.behind {next : Place} (h : Ends alloc next t t') (i : Option Nat)
    (hi : ∀ k, i = some k → ∃ d, (t.plist k).depot = some d) :
    Ends alloc (.behind t name next i) t t' := by
  cases i with
  | none => exact h
  | some k =>
    obtain ⟨d, hd⟩ := hi k rfl
    apply Ends.next _ h
    · exact .consulted name (t.plist k).depot d
    · simp only [Place.behind, proceed, hd, bind_eq_bind, bind_some]

theorem setSection_ends (h : swParameterSetWithDepot alloc t name value depot false false =
    some (r, t')) (hnext : Ends alloc next t' t'') :
    ∃ place, setSection alloc t name value depot next = some (place, t') ∧
    Ends alloc place t' t'' := by
  rcases setConsults_eq h with hnone | ⟨i, d, hsome, hd, rfl⟩
  · exact ⟨next, by simp [setSection, hnone, h, Place.behind], hnext⟩
  · refine ⟨.behind t' name next (some i), by simp [setSection, hsome, h], hnext.behind _ ?_⟩
    intro k hk
    cases hk
    exact ⟨d, hd⟩

theorem find_congr (hname : ∀ k, (t'.plist k).name = (t.plist k).name) (hpnum : t'.pnum = t.pnum) :
    swParameterFind t' name = swParameterFind t name := by
  have hcompare : t'.compare name = t.compare name := by
    funext k
    rw [Table.compare, Table.compare, hname]
  rw [swParameterFind, swParameterFind, hpnum, hcompare]

def Table.setValue (t : Table) (i : Nat) (v : Option CString) (attempts : Nat) : Table :=
  { t with
    plist := update t.plist i { t.plist i with value := v }
    allocs := attempts }

theorem setValue_slot : (t.setValue i v n).plist i = { t.plist i with value := v } :=
  update_self ..

theorem setValue_other (hki : k ≠ i) : (t.setValue i v n).plist k = t.plist k :=
  update_of_ne hki _ _

theorem setValue_self : t.setValue i (t.plist i).value t.allocs = t := by
  simp [Table.setValue]

theorem getAt_inv (h : getAt alloc t i b reply = some (r, text, t')) :
    ∃ v n d, t' = t.setValue i v n ∧ (t.plist i).depot = some d := by
  unfold getAt at h
  obtain ⟨java, hjava, h⟩ := bind_eq_some_iff.1 h
  obtain ⟨d, hd, -⟩ := map_eq_some_iff.1 hjava
  split at h
  · cases h
    exact ⟨none, t.allocs, d, rfl, hd⟩
  · split at h
    · cases h
      exact ⟨_, _, d, setValue_self.symm, hd⟩
    · split at h
      · dsimp only at h
        unfold keepReply at h
        split at h
        · cases h
          exact ⟨_, t.allocs + 1, d, rfl, hd⟩
        · cases h
          exact ⟨_, t.allocs, d, rfl, hd⟩
      · cases h
        exact ⟨_, _, d, setValue_self.symm, hd⟩

/-- A get finds the name, leaves the table as it is, or inserts the name and finds it then. -/
theorem get_inv (h : swParameterGet alloc t name b reply = some (r, text, t')) :
    (∃ i, swParameterFind t name = some (some i) ∧ getAt alloc t i b reply = some (r, text, t')) ∨
      swParameterFind t name = some none ∧ (t' = t ∨ ∃ d t₁ i, t.defdepot = some d ∧
          t.pnum < maxParaNum ∧ { t with allocs := t.allocs + 1 }.append
            ⟨if alloc t.allocs then some name else none, none, false, true, t.defdepot⟩ = some t₁ ∧
          swParameterFind t₁ name = some (some i) ∧
          getAt alloc t₁ i b reply = some (r, text, t')) := by
  obtain ⟨found, hfind, h⟩ := bind_eq_some_iff.1 h
  cases found with
  | some i => exact .inl ⟨i, hfind, h⟩
  | none =>
    refine .inr ⟨hfind, ?_⟩
    obtain ⟨java, hjava, h⟩ := bind_eq_some_iff.1 h
    obtain ⟨d, hd, -⟩ := map_eq_some_iff.1 hjava
    split at h
    · rename_i hroom
      obtain ⟨t₁, happend, h⟩ := bind_eq_some_iff.1 h
      obtain ⟨found, hfound, h⟩ := bind_eq_some_iff.1 h
      obtain ⟨i, rfl, h⟩ := bind_eq_some_iff.1 h
      exact .inr ⟨d, t₁, i, hd, of_decide_eq_true (Bool.and_eq_true_iff.1 hroom).2, happend, hfound,
        h⟩
    · cases h
      exact .inl rfl

theorem setValue_find : swParameterFind (t.setValue i v n) name = swParameterFind t name := by
  apply find_congr
  · intro k
    by_cases hki : k = i
    · rw [hki, setValue_slot]
    · rw [setValue_other hki]
  · rfl

theorem getConsults_eq (hfind : swParameterFind t name = some (some i))
    (h : getAt alloc t i b reply = some (r, text, t')) :
    ∃ k, getConsults t' name = some k ∧ ∀ j, k = some j → ∃ d, (t'.plist j).depot = some d := by
  obtain ⟨v, n, d, rfl, hd⟩ := getAt_inv h
  have hdepot : ((t.setValue i v n).plist i).depot = some d := by
    rw [setValue_slot]
    exact hd
  simp only [getConsults, setValue_find, hfind, bind_eq_bind, bind_some, isJava, hdepot,
    map_some]
  refine ⟨_, rfl, ?_⟩
  intro j hj
  split at hj
  · cases hj
    exact ⟨d, hdepot⟩
  · cases hj

theorem getSection_ends (h : swParameterGet alloc t name b reply = some (r, text, t')) :
    ∃ place, getSection alloc t name b reply = some (place, t') ∧ Ends alloc place t' t' := by
  have hindex : ∃ k, getConsults t' name = some k ∧ ∀ j, k = some j →
    ∃ d, (t'.plist j).depot = some d := by
    rcases get_inv h with ⟨i, hfind, hget⟩ | ⟨hfind, rfl | ⟨d, t₁, i, -, -, -, hfound, hget⟩⟩
    · exact getConsults_eq hfind hget
    · refine ⟨none, ?_, fun j hj => nomatch hj⟩
      simp [getConsults, hfind]
    · exact getConsults_eq hfound hget
  obtain ⟨k, hk, hdepot⟩ := hindex
  exact ⟨.behind t' name .idle k, by simp [getSection, h, hk], Ends.idle.behind k hdepot⟩

theorem rows_ends (hfuel : left ≤ fuel) (h : groupLoop alloc false fuel text left num t =
    some (num', t')) : Ends alloc (.rows text left) t t' := by
  induction fuel generalizing left text num t with
  | zero =>
    cases h
    have hleft : left = 0 := by omega
    exact .quiet (by simp [proceed, rowSection, hleft]) .idle
  | succ fuel ih =>
    rw [groupLoop] at h
    split at h
    · rename_i hleft
      cases h
      exact .quiet (by simp [proceed, rowSection, hleft]) .idle
    · rename_i hleft
      dsimp only at h
      split at h
      · rename_i hrow
        exact .quiet (by simp [proceed, rowSection, hleft, hrow]) (ih (by omega) h)
      · rename_i name value hrow
        split at h
        · rename_i hname
          cases h
          exact .quiet (by simp_all [proceed, rowSection]) .idle
        · rename_i hname
          split at h
          · rename_i hvalue
            cases h
            exact .quiet (by simp_all [proceed, rowSection]) .idle
          · rename_i hvalue
            obtain ⟨⟨r, t₁⟩, hset, h⟩ := bind_eq_some_iff.1 h
            obtain ⟨place, hsection, hends⟩ := setSection_ends hset (ih (by omega) h)
            exact .quiet (by simp_all [proceed, rowSection]) hends

/-- Left alone, every call ends with the table of the model without threads. -/
theorem serve_ends (h : request.serve alloc t = some t') :
    ∃ place t₁, enter alloc t request = some (place, t₁) ∧ Ends alloc place t₁ t' := by
  cases request with
  | get name b reply =>
    obtain ⟨⟨r, text, t₁⟩, hget, rfl⟩ := map_eq_some_iff.1 h
    exact (getSection_ends hget).imp fun _ h => ⟨t₁, h⟩
  | set name value =>
    obtain ⟨⟨r, t₁⟩, hset, rfl⟩ := map_eq_some_iff.1 h
    exact (setSection_ends hset .idle).imp fun _ h => ⟨t₁, h⟩
  | add name value depotname =>
    obtain ⟨⟨r, t₁⟩, hadd, rfl⟩ := map_eq_some_iff.1 h
    unfold swParameterAdd at hadd
    cases hdepot : depotFindByname t depotname with
    | none =>
      rw [hdepot] at hadd
      cases hadd
      exact ⟨.idle, t, by rw [enter, hdepot], .idle⟩
    | some d =>
      rw [hdepot] at hadd
      obtain ⟨⟨r', t₂⟩, hset, hadd⟩ := bind_eq_some_iff.1 hadd
      cases hadd
      obtain ⟨place, hsection, hends⟩ := setSection_ends hset .idle
      refine ⟨.adding name value d, t, by rw [enter, hdepot], .quiet ?_ hends⟩
      rw [proceed, hsection]
      rfl
  | setGroup buf size =>
    obtain ⟨⟨r, t₁⟩, hgroup, rfl⟩ := map_eq_some_iff.1 h
    obtain ⟨⟨num, t₂⟩, hloop, hgroup⟩ := bind_eq_some_iff.1 hgroup
    cases hgroup
    exact ⟨_, t, rfl, rows_ends le_rfl hloop⟩
  | delete name =>
    obtain ⟨⟨r, t₁⟩, hdelete, rfl⟩ := map_eq_some_iff.1 h
    exact ⟨.idle, t₁, by simp [enter, hdelete], .idle⟩
  | deleteAll => exact ⟨.idle, t', by simp [enter, show swParameterDeleteAll t = some t' from h],
    .idle⟩
  | save =>
    cases h
    exact ⟨.idle, _, rfl, .idle⟩

theorem Ends.run (h : Ends alloc place t t') (s : System) (thread : Nat)
    (hs : s.table = t) (hplace : s.place thread = place) :
    ∃ history, Run (step alloc) (fun _ a => a = .advance thread) s history
      { s with table := t', place := update s.place thread .idle } := by
  induction h generalizing s with
  | idle =>
    refine ⟨[], ?_⟩
    rw [← hs, ← hplace, update_eq_self]
    exact .start
  | @next place place' t t₁ t' event hproceed hends ih =>
    have hstep : step alloc s (.advance thread) =
        some (event, { s with table := t₁, place := update s.place thread place' }) := by
      rw [step, hs, hplace, hproceed]
      rfl
    obtain ⟨history, hrun⟩ := ih
      { s with table := t₁, place := update s.place thread place' } rfl
      (update_self ..)
    simp only [update_idem] at hrun
    exact ⟨_, Run.trans (.next .start rfl hstep) hrun⟩

/-- A thread that is left alone in its call moves on until it is idle again, with the table of the
model without threads and nothing else changed, wherever the other threads and the saving thread
stand. -/
theorem call_undisturbed (h : request.serve alloc s.table = some t')
    (hidle : s.place thread = .idle) :
    ∃ s₁ history, step alloc s (.call thread request) = some (.quiet, s₁) ∧
      Run (step alloc) (fun _ a => a = .advance thread) s₁ history
        { s with table := t', saveall := request.saveall s.table s.saveall } := by
  obtain ⟨place, t₁, henter, hends⟩ := serve_ends h
  let s₁ : System :=
    { s with
      table := t₁, saveall := request.saveall s.table s.saveall
      place := update s.place thread place }
  obtain ⟨history, hrun⟩ := hends.run s₁ thread rfl (update_self ..)
  refine ⟨s₁, history, ?_, ?_⟩
  · rw [step, hidle]
    dsimp only
    rw [henter]
    rfl
  · simpa only [s₁, update_idem, ← hidle, update_eq_self] using hrun

/-- A group of two rows, for which the thread takes the mutex twice. -/
theorem call_undisturbed_group : ∃ (t t' : Table) (s₁ : System) (history : List (Action × Event)),
    step (fun _ => true) (.start t) (.call 1 (.setGroup (cstring [97, 61, 50, 10, 66, 58, 51]) 7)) =
    some (.quiet, s₁) ∧
      Run (step fun _ => true) (fun _ a => a = .advance 1) s₁ history (.start t') ∧
      t'.pnum = 2 := by
  let d : Depot := ⟨1, cstring [102], .file, true⟩
  have hserve :
    (Request.serve (fun _ => true) { swParameterInit with depots := [d], defdepot := some d }
      (.setGroup (cstring [97, 61, 50, 10, 66, 58, 51]) 7)).any (·.pnum == 2) = true := by
    decide +kernel
  obtain ⟨t', hserve, hnum⟩ := (any_eq_true ..).1 hserve
  obtain ⟨s₁, history, hstep, hrun⟩ :=
    call_undisturbed hserve (s := .start _) (rfl : System.place _ 1 = _)
  exact ⟨_, t', s₁, history, hstep, hrun, beq_iff_eq.1 hnum⟩

end

inductive Work where
  | nothing
  | get (name : CString)
  | set (name : CString) (value : Option CString) (depot : Option Depot)
  | delete (name : CString)
  | deleteAll
  | save

def Request.work : Request → Work
  | .get name _ _ => .get name
  | .set name value => .set name value none
  | .add _ _ _ => .nothing
  | .setGroup _ _ => .nothing
  | .delete name => .delete name
  | .deleteAll => .deleteAll
  | .save => .save

def Place.work : Place → Work
  | .adding name value d => .set name value (some d)
  | .rows text left =>
      if left = 0 then .nothing
      else
        match groupRow ((text.dropWhile isBlank).takeWhile fun c => !isLineEnd c) with
        | none => .nothing
        | some (name, value) => .set name (some value) none
  | _ => .nothing

def Action.work (s : System) : Action → Work
  | .call _ r => r.work
  | .advance thread => (s.place thread).work
  | .saver => .nothing

inductive Work.Leaves (alloc : Alloc) (t : Table) : Work → Table → Prop where
  | attempts (work : Work) (n : Nat) : Leaves alloc t work { t with allocs := n }
  | get {name b reply r text t'} (h : swParameterGet alloc t name b reply = some (r, text, t')) :
      Leaves alloc t (.get name) t'
  | set {name value depot r t'} (n : Nat)
      (h : swParameterSetWithDepot alloc { t with allocs := n } name value depot false false =
        some (r, t')) : Leaves alloc t (.set name value depot) t'
  | delete {name r t'} (h : swParameterDelete t name = some (r, t')) :
      Leaves alloc t (.delete name) t'
  | deleteAll {t'} (h : swParameterDeleteAll t = some t') : Leaves alloc t .deleteAll t'
  | save : Leaves alloc t .save (swParameterSave t false).2

inductive Move (alloc : Alloc) (s : System) : Action → Event → System → Prop where
  | call {thread request place t} (hidle : s.place thread = .idle)
      (h : enter alloc s.table request = some (place, t)) :
      Move alloc s (.call thread request) .quiet { s with
        table := t, saveall := request.saveall s.table s.saveall
        place := update s.place thread place }
  | advance {thread event place t}
      (h : proceed alloc s.table (s.place thread) = some (event, place, t)) :
      Move alloc s (.advance thread) event { s with
        table := t, place := update s.place thread place }
  | saver {s'} (h : paramSaveProc s = some s') : Move alloc s .saver .quiet s'

theorem setSection_inv (h : setSection alloc t name value depot next = some (place, t')) :
    ∃ i r, setConsults t name value depot = some i ∧
      swParameterSetWithDepot alloc t name value depot false false = some (r, t') ∧
      place = .behind t' name next i := by
  obtain ⟨i, hi, h⟩ := bind_eq_some_iff.1 h
  obtain ⟨⟨r, t₁⟩, hset, h⟩ := bind_eq_some_iff.1 h
  cases h
  exact ⟨i, r, hi, hset, rfl⟩

theorem enter_leaves (h : enter alloc t request = some (place, t')) :
    request.work.Leaves alloc t t' := by
  cases request with
  | get name b reply =>
    obtain ⟨⟨r, text, t₁⟩, hget, h⟩ := bind_eq_some_iff.1 h
    obtain ⟨i, -, h⟩ := bind_eq_some_iff.1 h
    cases h
    exact .get hget
  | set name value =>
    obtain ⟨i, r, -, hset, -⟩ := setSection_inv h
    exact .set t.allocs hset
  | add name value depotname =>
    rw [enter] at h
    split at h
    all_goals
      cases h
      exact .attempts _ t.allocs
  | setGroup buf size =>
    cases h
    exact .attempts _ t.allocs
  | delete name =>
    obtain ⟨⟨r, t₁⟩, hdelete, h⟩ := bind_eq_some_iff.1 h
    cases h
    exact .delete hdelete
  | deleteAll =>
    obtain ⟨t₁, hdelete, h⟩ := bind_eq_some_iff.1 h
    cases h
    exact .deleteAll hdelete
  | save =>
    cases h
    exact .save

theorem rowSection_leaves (h : rowSection alloc t text left = some (place, t')) :
    (Place.rows text left).work.Leaves alloc t t' := by
  unfold rowSection at h
  split at h
  · cases h
    exact .attempts _ t.allocs
  · rename_i hleft
    dsimp only at h
    rw [Place.work, if_neg hleft]
    split at h
    · cases h
      exact .attempts _ t.allocs
    · rename_i name value hrow
      split at h
      · cases h
        exact .attempts _ _
      · split at h
        · cases h
          exact .attempts _ _
        · obtain ⟨i, r, -, hset, -⟩ := setSection_inv h
          exact .set _ hset

theorem proceed_leaves (h : proceed alloc t place = some (event, place', t')) :
    place.work.Leaves alloc t t' := by
  cases place with
  | idle => cases h
  | adding name value d =>
    obtain ⟨⟨next, t₁⟩, hsection, h⟩ := bind_eq_some_iff.1 h
    cases h
    obtain ⟨i, r, -, hset, -⟩ := setSection_inv hsection
    exact .set t.allocs hset
  | rows text left =>
    obtain ⟨⟨next, t₁⟩, hsection, h⟩ := bind_eq_some_iff.1 h
    cases h
    exact rowSection_leaves hsection
  | consult name i owner next =>
    obtain ⟨d, -, h⟩ := bind_eq_some_iff.1 h
    cases h
    exact .attempts _ t.allocs

theorem step_inv (h : step alloc s a = some (event, s')) : Move alloc s a event s' := by
  cases a with
  | call thread request =>
    simp only [step] at h
    split at h
    · rename_i hidle
      obtain ⟨⟨place, t⟩, henter, h⟩ := bind_eq_some_iff.1 h
      cases h
      exact .call hidle henter
    · cases h
  | advance thread =>
    obtain ⟨⟨event', place, t⟩, hproceed, h⟩ := bind_eq_some_iff.1 h
    cases h
    exact .advance hproceed
  | saver =>
    obtain ⟨s₁, hproc, h⟩ := bind_eq_some_iff.1 h
    cases h
    exact .saver hproc

end SwApi.Parameter
