import Mathlib.Data.List.Nodup
import SwApi.Library.Transition
import SwApi.Timer.Model

/-! Calls and passes one after the other, watched by a clock that does not wrap. The watch of a
timer is kept from the calls alone, never from what the node holds. -/
namespace SwApi.Timer
open Library Os List Function Bool

/-- `banked` is the time for which the timer was enabled until it was disabled last, `counted`
the time that the clock saw of it, and `since` the moment from which it has been running. `stale`
says that the block of the node did not hold the two parameters given to the creation, and no others
were given since. -/
structure Watch where
  interval : Nat
  fired : Nat
  banked : Nat
  counted : Nat
  since : Nat
  running : Bool
  supplied : Handling
  stale : Bool

def Watch.enabled (w : Watch) (now : Nat) : Nat := w.banked + if w.running then now - w.since else 0

def Watch.arm (w : Watch) (interval now : Nat) : Watch :=
  { w with interval, fired := 0, banked := 0, counted := 0, since := now, running := true }

def Watch.setStatus (w : Watch) (status : TimerStatus) (now : Nat) : Watch :=
  match w.running, status with
  | true, .disable =>
      { w with
        banked := w.enabled now, counted := w.counted + (clock now - clock w.since), running :=
          false }
  | false, .enable => { w with since := now, running := true }
  | _, _ => w

def Watch.fire (w : Watch) : Watch := { w with fired := w.fired + 1 }

inductive Call where
  | create (address : Nat) (block : TimerNode) (name : Option CString) (interval times : Int)
      (handling : Handling) (start now : Nat)
  | setOntimehandler (handle : Nat) (handling : Handling)
  | setInterval (handle : Nat) (interval times : Int) (now : Nat)
  | reset (handle now : Nat)
  | setStatus (handle : Nat) (status : Int) (now : Nat)
  | destroy (handle : Nat)
  /-- A pass of `thread_pro`, with the time at which each node is looked at. -/
  | pass (nows : List Nat)

structure System where
  des : TimerDes
  time : Nat
  watch : Nat → Watch

structure Firing where
  address : Nat
  now : Nat
  handling : Handling
  watch : Watch

/-- The pool gives a block that no timer uses, an interval is an `int`, time does not run
backwards, and a pass looks at every node. -/
def System.admits (s : System) : Call → Bool
  | .create address _ _ interval _ _ start now =>
      (s.des.timers.all fun t => t.1 != address) && decide (interval < 2^31) &&
        decide (s.time ≤ start) && decide (start ≤ now)
  | .setInterval _ interval _ now => decide (interval < 2^31) && decide (s.time ≤ now)
  | .reset _ now => s.time ≤ now
  | .setStatus _ _ now => s.time ≤ now
  | .pass nows => nows.length == s.des.timers.length && decide ((s.time :: nows).IsChain (· ≤ ·))
  | _ => true

def Call.ends (time : Nat) : Call → Nat
  | .create _ _ _ _ _ _ _ now => now
  | .setInterval _ _ _ now => now
  | .reset _ now => now
  | .setStatus _ _ now => now
  | .pass nows => nows.getLastD time
  | _ => time

def System.onWatch (s : System) (handle : Nat) (f : Watch → Watch) : Nat → Watch :=
  update s.watch handle (f (s.watch handle))

def System.looks (s : System) (nows : List Nat) :
    List (Nat × (Nat × TimerNode) × Option Handling) :=
  nows.zip (s.des.timers.zip (threadSection s.des (nows.map tick)).1)

def System.firings (s : System) (nows : List Nat) : List Firing :=
  (s.looks nows).filterMap fun (now, (address, _), handling) =>
    handling.map fun handling => ⟨address, now, handling, s.watch address⟩

def step (s : System) (c : Call) : Option (List Firing × System) :=
  if !s.admits c then none
  else
    match c with
    | .create address block name interval times handling start now =>
        let (handle, des) := swTimerCreate s.des address block name interval times handling.handler
          handling.wparam handling.lparam (tick start) (tick now)
        let stale := decide (block.handling.wparam ≠ handling.wparam ∨
          block.handling.lparam ≠ handling.lparam)
        some ([], {
          des, time := c.ends s.time
          watch :=
            if handle = 0 then s.watch
            else s.onWatch handle fun w =>
              { w.arm interval.toNat start with supplied := handling, stale } })
    | .setOntimehandler handle h =>
        let (result, des) := swTimerSetOntimehandler s.des handle h.handler h.wparam h.lparam
        some ([], { s with
          des
          watch :=
            if result = 0 then s.onWatch handle fun w => { w with supplied := h, stale := false }
            else s.watch })
    | .setInterval handle interval times now =>
        let (result, des) := swTimerSetInterval s.des handle interval times (tick now)
        some ([], {
          des, time := c.ends s.time
          watch := if result = 0 then s.onWatch handle (·.arm interval.toNat now) else s.watch })
    | .reset handle now =>
        let (result, des) := swTimerReset s.des handle (tick now)
        some ([], {
          des, time := c.ends s.time
          watch :=
            if result = 0 then s.onWatch handle fun w => w.arm w.interval now else s.watch })
    | .setStatus handle status now =>
        let (result, des) := swTimerSetStatus s.des handle status (tick now)
        some ([], {
          des, time := c.ends s.time
          watch :=
            if result = 0 then s.onWatch handle fun w =>
              w.setStatus (if status = 0 then .disable else .enable) now
            else s.watch })
    | .destroy handle => some ([], { s with des := swTimerDestroy s.des handle })
    | .pass nows =>
        some (s.firings nows, {
          des := (threadSection s.des (nows.map tick)).2
          time := c.ends s.time
          watch := fun address =>
            if (s.firings nows).any (·.address == address) then (s.watch address).fire
            else s.watch address })

def System.start (time : Nat) (watch : Nat → Watch) : System := ⟨swTimerInit, time, watch⟩

def noWatch : Nat → Watch := fun _ => ⟨0, 0, 0, 0, 0, false, ⟨0, 0, 0⟩, false⟩

def System.Distinct (s : System) : Prop := (s.des.timers.map Prod.fst).Nodup

inductive Change (s : System) (address : Nat) (n : TimerNode) : Call → TimerNode → Watch →
    Prop where
  | same {c} : Change s address n c n (s.watch address)
  | supplied {handling} : Change s address n (.setOntimehandler address handling)
      { n with handling } { s.watch address with supplied := handling, stale := false }
  | reset {now} (hnow : s.time ≤ now) : Change s address n (.reset address now)
      (n.reset (tick now)) ((s.watch address).arm (s.watch address).interval now)
  | setInterval {interval times : Int} {now} (hnow : s.time ≤ now) (hpos : 0 ≤ interval)
      (hint : interval < 2^31) (htimes : -1 ≤ times) :
      Change s address n (.setInterval address interval times now)
        (n.setInterval (UInt32.ofNat interval.toNat) times (tick now))
        ((s.watch address).arm interval.toNat now)
  | setStatus {code status now} (hstatus : TimerStatus.ofInt? code = some status)
      (hnow : s.time ≤ now) : Change s address n (.setStatus address code now)
        (n.setStatus status (tick now)) ((s.watch address).setStatus status now)
  | fired {nows now handling} (hlook : (now, address, n) ∈ nows.zip s.des.timers)
      (hnow : s.time ≤ now) (hends : now ≤ nows.getLastD s.time)
      (hfires : (onTick n (tick now)).1 = some handling)
        (hleft : (onTick n (tick now)).2.times ≠ 0) :
      Change s address n (.pass nows) (onTick n (tick now)).2 (s.watch address).fire

inductive Created (s : System) (address : Nat) : Call → TimerNode → Watch → Prop where
  | intro {block name interval times handling start now} (hstart : s.time ≤ start)
      (hnow : start ≤ now) (hpos : 0 ≤ interval) (hint : interval < 2^31) (htimes : -1 ≤ times) :
      Created s address (.create address block (some name) interval times handling start now)
        (initNode block name interval times handling.handler (tick start))
        { (s.watch address).arm interval.toNat start with
          supplied := handling
          stale := decide (block.handling.wparam ≠ handling.wparam ∨
            block.handling.lparam ≠ handling.lparam) }

theorem onTimer_spec (hdistinct : (timers.map Prod.fst).Nodup)
    (h : onTimer handle f timers = some timers') : timers'.map Prod.fst = timers.map Prod.fst ∧
      ∀ a n', (a, n') ∈ timers' → ∃ n, (a, n) ∈ timers ∧ n' = if a = handle then f n else n := by
  obtain ⟨before, n, after, rfl, rfl⟩ := onTimer_eq_some h
  refine ⟨by simp, ?_⟩
  rw [map_append, map_cons, nodup_middle, nodup_cons] at hdistinct
  intro a n' hmem
  have hother : ∀ m, (a, m) ∈ before ∨ (a, m) ∈ after → a ≠ handle := by
    rintro m hm rfl
    apply hdistinct.1
    rw [← map_append]
    exact mem_map.2 ⟨(a, m), mem_append.2 hm, rfl⟩
  rcases mem_append.1 hmem with hbefore | htail
  · refine ⟨n', mem_append_left _ hbefore, ?_⟩
    rw [if_neg (hother n' (.inl hbefore))]
  · rcases mem_cons.1 htail with heq | hafter
    · cases heq
      exact ⟨n, by simp, by rw [if_pos rfl]⟩
    · refine ⟨n', by simp [hafter], ?_⟩
      rw [if_neg (hother n' (.inr hafter))]

theorem looks_eq (s : System) (nows : List Nat) : s.looks nows =
    (nows.zip s.des.timers).map fun v => (v.1, v.2, (onTick v.2.2 (tick v.1)).1) := by
  unfold System.looks threadSection
  generalize s.des.timers = timers
  induction nows generalizing timers with
  | nil => rfl
  | cons now nows ih =>
    cases timers with
    | nil => rfl
    | cons t timers =>
      have htail := ih timers
      simpa using htail

theorem threadSection_timers (des : TimerDes) (nows : List Nat) :
    (threadSection des (nows.map tick)).2.timers =
      ((nows.zip des.timers).map fun v => (v.2.1, (onTick v.2.2 (tick v.1)).2)).filter
        fun t => t.2.times ≠ 0 := by
  simp only [threadSection, map_zipWith, zipWith_map_left, zip]

theorem mem_firings {s : System} : f ∈ s.firings nows ↔
    ∃ n, (f.now, f.address, n) ∈ nows.zip s.des.timers ∧
      (onTick n (tick f.now)).1 = some f.handling ∧ f.watch = s.watch f.address := by
  rw [System.firings, looks_eq, filterMap_map, mem_filterMap]
  constructor
  · rintro ⟨⟨now, address, n⟩, hmem, hf⟩
    obtain ⟨handling, hfires, rfl⟩ := Option.map_eq_some_iff.1 hf
    exact ⟨n, hmem, hfires, rfl⟩
  · rintro ⟨n, hmem, hfires, hwatch⟩
    refine ⟨(f.now, f.address, n), hmem, ?_⟩
    simp [hfires, ← hwatch]

section
variable {s : System}

theorem time_le_of_chain {time : Nat} (h : (time :: nows).IsChain (· ≤ ·)) :
    (∀ now ∈ nows, time ≤ now ∧ now ≤ nows.getLastD time) ∧ time ≤ nows.getLastD time := by
  induction nows generalizing time with
  | nil => exact ⟨by simp, le_rfl⟩
  | cons now nows ih =>
    obtain ⟨hnow, hrest⟩ := isChain_cons_cons.1 h
    obtain ⟨hall, hlast⟩ := ih hrest
    have hget : (now :: nows).getLastD time = nows.getLastD now := by
      cases nows <;> rfl
    rw [hget]
    refine ⟨?_, hnow.trans hlast⟩
    intro t ht
    rcases mem_cons.1 ht with rfl | ht
    · exact ⟨hnow, hlast⟩
    · exact ⟨hnow.trans (hall t ht).1, (hall t ht).2⟩

theorem step_admits (h : step s c = some (fs, s')) : s.admits c = true := by
  unfold step at h
  split at h
  · cases h
  · rename_i hadmits
    simpa using hadmits

theorem le_ends_of_admits (h : s.admits c = true) : s.time ≤ c.ends s.time := by
  cases c with
  | create address block name interval times handling start now =>
    simp only [System.admits, and_eq_true, decide_eq_true_eq] at h
    exact h.1.2.trans h.2
  | setInterval handle interval times now =>
    simp only [System.admits, and_eq_true, decide_eq_true_eq] at h
    exact h.2
  | reset handle now | setStatus handle status now => exact of_decide_eq_true h
  | pass nows =>
    simp only [System.admits, and_eq_true, decide_eq_true_eq] at h
    exact (time_le_of_chain h.2).2
  | _ => exact le_rfl

structure Changes (s : System) (c : Call) (s' : System) : Prop where
  distinct : s'.Distinct
  le : s.time ≤ s'.time
  time : s'.time = c.ends s.time
  timers : ∀ a n', (a, n') ∈ s'.des.timers → Created s a c n' (s'.watch a) ∨
    ∃ n, (a, n) ∈ s.des.timers ∧ Change s a n c n' (s'.watch a)

section
variable (hdistinct : s.Distinct)
include hdistinct

theorem Changes.of_eq (hle : s.time ≤ s'.time)
    (htime : s'.time = c.ends s.time) (htimers : s'.des.timers = s.des.timers)
    (hwatch : s'.watch = s.watch) : Changes s c s' where
  distinct := by
    rw [System.Distinct, htimers]
    exact hdistinct
  le := hle
  time := htime
  timers a n' hmem := by
    rw [htimers] at hmem
    refine .inr ⟨n', hmem, ?_⟩
    rw [hwatch]
    exact .same

theorem Changes.found (htime : s.time ≤ c.ends s.time)
    (h : onTimer handle f s.des.timers = some des.timers)
    (hchange : ∀ n, Change s handle n c (f n) (g (s.watch handle))) :
    Changes s c ⟨des, c.ends s.time, s.onWatch handle g⟩ := by
  obtain ⟨hmap, hmem⟩ := onTimer_spec hdistinct h
  refine ⟨?_, htime, rfl, ?_⟩
  · rw [System.Distinct]
    dsimp only
    rw [hmap]
    exact hdistinct
  · intro a n' hn'
    obtain ⟨n, hn, rfl⟩ := hmem a n' hn'
    refine .inr ⟨n, hn, ?_⟩
    change Change s a n c _ (update s.watch handle (g (s.watch handle)) a)
    split
    · rename_i ha
      subst ha
      rw [update_self]
      exact hchange n
    · rename_i ha
      rw [update_of_ne ha]
      exact .same

theorem Changes.answer (htime : s.time ≤ c.ends s.time)
    (h : s.des.answer (onTimer handle f s.des.timers) = (result, des))
    (hchange : ∀ n, Change s handle n c (f n) (g (s.watch handle))) :
    Changes s c ⟨des, c.ends s.time, if result = 0 then s.onWatch handle g else s.watch⟩ := by
  cases hfound : onTimer handle f s.des.timers with
  | none =>
    rw [hfound] at h
    cases h
    exact .of_eq hdistinct htime rfl rfl rfl
  | some timers =>
    rw [hfound] at h
    cases h
    exact .found hdistinct htime hfound hchange

theorem Changes.refuse (htime : s.time ≤ c.ends s.time) :
    Changes s c ⟨s.des, c.ends s.time, if (-1 : Int) = 0 then s.onWatch handle g else s.watch⟩ :=
  .of_eq hdistinct htime rfl rfl rfl

theorem changes_create
    (h : step s (.create address block name interval times handling start now) = some (fs, s')) :
    Changes s (.create address block name interval times handling start now) s' := by
  have hadmits := step_admits h
  rw [step, hadmits] at h
  simp only [System.admits, and_eq_true, all_eq_true, bne_iff_ne, decide_eq_true_eq] at hadmits
  obtain ⟨⟨⟨hfresh, hint⟩, hstart⟩, hnow⟩ := hadmits
  cases hnode : createNode address block name interval times handling.handler (tick start) with
  | none =>
    simp only [swTimerCreate, hnode, if_true] at h
    cases h
    exact .of_eq hdistinct (hstart.trans hnow) rfl rfl rfl
  | some node =>
    simp only [swTimerCreate, hnode] at h
    cases h
    obtain ⟨name, rfl, hchecked⟩ := Option.bind_eq_some_iff.1 hnode
    split at hchecked
    · cases hchecked
    · rename_i hchecks
      cases hchecked
      have hzero : address ≠ 0 := fun h => hchecks (.inr (.inr (.inr h)))
      simp only [hzero, if_false]
      have hadded : ∀ now, (addTimer s.des address (initNode block name interval times
          handling.handler (tick start)) now).timers = s.des.timers ++
            [(address, initNode block name interval times handling.handler (tick start))] := by
        intro now
        simp only [addTimer, TimerDes.give, addTimerSection, upgradeTimeout]
        split <;> rfl
      refine ⟨?_, hstart.trans hnow, rfl, ?_⟩
      · rw [System.Distinct]
        dsimp only
        rw [hadded, map_append, nodup_append]
        refine ⟨hdistinct, by simp, ?_⟩
        intro a ha b hb
        obtain ⟨t, ht, rfl⟩ := mem_map.1 ha
        rw [map_singleton, mem_singleton] at hb
        rw [hb]
        exact hfresh t ht
      · intro a n' hn'
        dsimp only at hn' ⊢
        rw [hadded] at hn'
        rcases mem_append.1 hn' with hold | hnew
        · have hne : a ≠ address := hfresh (a, n') hold
          refine .inr ⟨n', hold, ?_⟩
          rw [System.onWatch, update_of_ne hne]
          exact .same
        · rw [mem_singleton] at hnew
          cases hnew
          left
          rw [System.onWatch, update_self]
          exact .intro hstart hnow (by omega) hint (by omega)

end

theorem step_firings (h : step s c = some (fs, s')) :
    (∃ nows, c = .pass nows ∧ fs = s.firings nows ∧ nows.length = s.des.timers.length ∧
      (s.time :: nows).IsChain (· ≤ ·)) ∨ ((∀ nows, c ≠ .pass nows) ∧ fs = []) := by
  have hadmits := step_admits h
  unfold step at h
  rw [hadmits] at h
  cases c with
  | pass nows =>
    simp only [System.admits, and_eq_true, beq_iff_eq, decide_eq_true_eq] at hadmits
    cases h
    exact .inl ⟨nows, rfl, rfl, hadmits⟩
  | _ =>
    cases h
    exact .inr ⟨fun _ hc => (by cases hc), rfl⟩

theorem changes_pass {nows : List Nat} (hdistinct : s.Distinct)
    (h : step s (.pass nows) = some (fs, s')) : Changes s (.pass nows) s' := by
  rcases step_firings h with ⟨nows', hc, -, hlength, hchain⟩ | ⟨hno, -⟩
  case inr => exact absurd rfl (hno nows)
  · cases hc
    rw [step] at h
    split at h
    · cases h
    cases h
    have haddresses : (nows.zip s.des.timers).map (fun v => v.2.1) = s.des.timers.map Prod.fst := by
      have hsnd : (nows.zip s.des.timers).map Prod.snd = s.des.timers :=
        map_snd_zip (by omega)
      calc (nows.zip s.des.timers).map (fun v => v.2.1)
          = ((nows.zip s.des.timers).map Prod.snd).map Prod.fst := by rw [map_map]; rfl
        _ = s.des.timers.map Prod.fst := by rw [hsnd]
    have hzip : ((nows.zip s.des.timers).map fun v => v.2.1).Nodup := by
      rw [haddresses]
      exact hdistinct
    refine ⟨?_, (time_le_of_chain hchain).2, rfl, ?_⟩
    · rw [System.Distinct]
      dsimp only
      rw [threadSection_timers]
      apply Nodup.sublist (filter_sublist.map _)
      rw [map_map]
      exact hzip
    · intro a n' hn'
      dsimp only at hn' ⊢
      rw [threadSection_timers] at hn'
      obtain ⟨hn', hleft⟩ := mem_filter.1 hn'
      obtain ⟨⟨now, address, n⟩, hlook, heq⟩ := mem_map.1 hn'
      cases heq
      have hnow := (time_le_of_chain hchain).1 now (of_mem_zip hlook).1
      refine .inr ⟨n, (of_mem_zip hlook).2, ?_⟩
      cases hfires : (onTick n (tick now)).1 with
      | some handling =>
        have hany : (s.firings nows).any (·.address == address) = true := by
          rw [any_eq_true]
          exact ⟨⟨address, now, handling, s.watch address⟩,
            mem_firings.2 ⟨n, hlook, hfires, rfl⟩, by simp⟩
        rw [if_pos hany]
        exact .fired hlook hnow.1 hnow.2 hfires (by simpa using hleft)
      | none =>
        -- the only look at this timer does not fire it
        have hnone : ¬(s.firings nows).any (·.address == address) = true := by
          rw [any_eq_true]
          rintro ⟨f, hf, haddress⟩
          obtain ⟨m, hlook', hfires', -⟩ := mem_firings.1 hf
          rw [beq_iff_eq] at haddress
          rw [haddress] at hlook'
          have hsame := inj_on_of_nodup_map hzip hlook hlook' rfl
          cases hsame
          rw [hfires] at hfires'
          cases hfires'
        rw [if_neg hnone, onTick_of_none hfires]
        exact .same

theorem step_changes (hdistinct : s.Distinct) (h : step s c = some (fs, s')) : Changes s c s' := by
  have hadmits := step_admits h
  have hends := le_ends_of_admits hadmits
  cases c with
  | create address block name interval times handling start now => exact changes_create hdistinct h
  | pass nows => exact changes_pass hdistinct h
  | setOntimehandler handle handling =>
    rw [step, hadmits] at h
    rcases hcall : swTimerSetOntimehandler s.des handle handling.handler handling.wparam
      handling.lparam with ⟨result, des⟩
    simp only [hcall] at h
    cases h
    rw [swTimerSetOntimehandler] at hcall
    split at hcall
    · cases hcall
      exact .refuse hdistinct le_rfl
    · exact .answer hdistinct le_rfl hcall fun n => .supplied
  | setInterval handle interval times now =>
    rw [step, hadmits] at h
    simp only [System.admits, and_eq_true, decide_eq_true_eq] at hadmits
    rcases hcall : swTimerSetInterval s.des handle interval times (tick now) with ⟨result, des⟩
    simp only [hcall] at h
    cases h
    rw [swTimerSetInterval] at hcall
    split at hcall
    · cases hcall
      exact .refuse hdistinct hends
    · rename_i hchecks
      exact .answer hdistinct hends hcall fun n => .setInterval hends (by omega) hadmits.1
        (by omega)
  | reset handle now =>
    rw [step, hadmits] at h
    rcases hcall : swTimerReset s.des handle (tick now) with ⟨result, des⟩
    simp only [hcall] at h
    cases h
    rw [swTimerReset] at hcall
    split at hcall
    · cases hcall
      exact .refuse hdistinct hends
    · exact .answer hdistinct hends hcall fun n => .reset hends
  | setStatus handle code now =>
    rw [step, hadmits] at h
    cases hsection : setStatusSection s.des handle code (tick now) with
    | none =>
      simp only [swTimerSetStatus, hsection] at h
      cases h
      exact .refuse hdistinct hends
    | some r =>
      obtain ⟨gives, des⟩ := r
      simp only [swTimerSetStatus, hsection, if_true] at h
      cases h
      obtain ⟨status, hstatus, hfound⟩ := setStatusSection_found hsection
      have hsame : (if code = 0 then TimerStatus.disable else .enable) = status := by
        unfold TimerStatus.ofInt? at hstatus
        split_ifs at hstatus ⊢ <;> cases hstatus <;> rfl
      rw [hsame]
      refine .found hdistinct hends ?_ fun n => .setStatus hstatus hends
      cases gives <;> exact hfound
  | destroy handle =>
    cases h
    have hsublist : (swTimerDestroy s.des handle).timers.Sublist s.des.timers := by
      rw [swTimerDestroy]
      split
      · exact Sublist.refl _
      · exact eraseP_sublist
    refine ⟨Nodup.sublist (hsublist.map _) hdistinct, le_rfl, rfl, ?_⟩
    intro a n' hn'
    exact .inr ⟨n', hsublist.mem hn', .same⟩

end

end SwApi.Timer
