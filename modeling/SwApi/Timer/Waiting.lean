import SwApi.Library.Transition
import SwApi.Timer.Model

/-! The timer thread and the threads that call it, step by step: a section under the mutex is
one step, as is an operation on the signal and a reading of a shared field outside of the
mutex. `find_min_timeout` gives the mutex back at the first timer that lowers the minimum,
and looks at the rest of the list without it.

The tick does not wrap here: the times are its values. `sw_timer_destroy` is not called. -/
namespace SwApi.Timer.Waiting
open Library Os List

inductive Pc where
  | top
  | enter
  /-- `find_min_timeout` has read `timeout`. -/
  | lock (min : UInt32)
  /-- Before the look at the timer with this index; `held` is the mutex. -/
  | scan (i : Nat) (min : UInt32) (held : Bool)
  | store (min : UInt32)
  | ready
  /-- In `sw_signal_wait`, for ever or until a deadline. -/
  | waiting (deadline : Option Nat)
  | pass
deriving DecidableEq

inductive Api where
  | idle
  | adding (address : Nat) (node : TimerNode)
  | giving

structure System where
  des : TimerDes
  now : Nat
  pc : Pc
  api : Nat → Api

inductive Action where
  | tick (ms : Nat)
  | thread
  | create (t : Nat) (address : Nat) (block : TimerNode) (name : Option CString)
      (interval times : Int) (handler : Nat)
  /-- The next part of `sw_timer_create` or `sw_timer_set_status`. -/
  | advance (t : Nat)
  | reset (t : Nat) (handle : Nat)
  | setInterval (t : Nat) (handle : Nat) (interval times : Int)
  | setStatus (t : Nat) (handle : Nat) (status : Int)

def Pc.held : Pc → Bool
  | .scan _ _ held => held
  | _ => false

/-- The deadline of `sw_signal_wait`: as an `int` a large timeout is negative. -/
def deadline (now : Nat) (timeout : UInt32) : Option Nat :=
  if timeout.toNat < 2^31 then some (now + timeout.toNat) else none

def threadStep (s : System) : Option System :=
  match s.pc with
  | .top => some { s with des := { s.des with timeout := -1 }, pc := .enter }
  | .enter => some { s with pc := .lock s.des.timeout }
  | .lock min => some { s with pc := .scan 0 min true }
  | .scan i min held =>
      match s.des.timers[i]? with
      | none => some { s with pc := .store min }
      | some t =>
          let lower := minTimeout min t.2 (counter s.now)
          some { s with pc := .scan (i + 1) lower (held && lower == min) }
  | .store min => some { s with des := { s.des with timeout := min }, pc := .ready }
  | .ready => some { s with pc := .waiting (deadline s.now s.des.timeout) }
  | .waiting deadline =>
      if 0 < s.des.signal.val then
        let signal := { s.des.signal with val := s.des.signal.val - 1 }
        some { s with des := { s.des with signal }, pc := .pass }
      else if deadline.any (· ≤ s.now) then some { s with pc := .pass }
      else none
  | .pass =>
      let nows := replicate s.des.timers.length (counter s.now)
      some { s with des := (threadSection s.des nows).2, pc := .top }

def System.enters (s : System) (t : Nat) (des : TimerDes) (api : Api) : Option System :=
  if s.pc.held then none else some { s with des, api := Function.update s.api t api }

def apiStep (s : System) (t : Nat) : Action → Option System
  | .create _ address block name interval times handler =>
      if interval < 2^31 then
        let api :=
          match createNode address block name interval times handler (counter s.now) with
          | none => Api.idle
          | some node => .adding address node
        some { s with api := Function.update s.api t api }
      else none
  | .reset _ handle => s.enters t (swTimerReset s.des handle (counter s.now)).2 .idle
  | .setInterval _ handle interval times =>
      if interval < 2^31 then
        s.enters t (swTimerSetInterval s.des handle interval times (counter s.now)).2 .idle
      else none
  | .setStatus _ handle status =>
      match setStatusSection s.des handle status (counter s.now) with
      | none => s.enters t s.des .idle
      | some (gives, des) => s.enters t des (if gives then .giving else .idle)
  | _ => none

def step (s : System) (a : Action) : Option (Unit × System) :=
  match a with
  | .tick ms => if s.now + ms < 2^32 then some ((), { s with now := s.now + ms }) else none
  | .thread => (threadStep s).map fun s => ((), s)
  | .advance t =>
      match s.api t with
      | .idle => none
      | .adding address node =>
          (s.enters t (addTimerSection s.des address node (counter s.now)) .giving).map fun s =>
            ((), s)
      | .giving => some ((), { s with des := s.des.give, api := Function.update s.api t .idle })
  | .create t _ _ _ _ _ _ | .reset t _ | .setInterval t _ _ _ | .setStatus t _ _ =>
      match s.api t with
      | .idle => (apiStep s t a).map fun s => ((), s)
      | _ => none

def System.start : System := ⟨swTimerInit, 0, .top, fun _ => .idle⟩

def Live (n : TimerNode) : Prop := n.status = .enable ∧ n.times ≠ 0
  deriving Decidable

def System.Pending (s : System) : Prop := ∃ t, s.api t = .giving

/-- While the thread sleeps and nobody wakes it, no timer has its time before the deadline. -/
def Attended (s : System) : Prop :=
  ∀ deadline, s.pc = .waiting deadline → s.des.signal.val = 0 → s.Pending ∨
    ∀ t ∈ s.des.timers, Live t.2 → ∃ d, deadline = some d ∧ d ≤ t.2.triggerTime.toNat

/-- The timers the thread has looked at, and the time before which none of them is due
according to what it has seen. -/
def System.relies (s : System) : Nat × Nat :=
  match s.pc with
  | .scan i min _ => (i, s.now + min.toNat)
  | .store min => (s.des.timers.length, s.now + min.toNat)
  | .ready => (s.des.timers.length, s.now + s.des.timeout.toNat)
  | .waiting (some d) => (s.des.timers.length, d)
  | .waiting none => (s.des.timers.length, 2^32)
  | _ => (0, 0)

def Pc.searching : Pc → Bool
  | .scan _ _ _ => true
  | .store _ => true
  | .ready => true
  | _ => false

def System.looked (s : System) : Option (Nat × TimerNode) :=
  match s.pc with
  | .scan i _ _ => s.des.timers[i]?
  | _ => none

def Respects (timers : Timers) (count limit : Nat) : Prop :=
  ∀ t ∈ timers.take count, Live t.2 → limit ≤ t.2.triggerTime.toNat
  deriving Decidable

/-- A step that the thread need not be woken for: the tick does not advance so far during a
search that the wait will start too late, no timer is overdue when it is looked at, and no timer
the thread has looked at is armed for an earlier time. -/
def Harmless (s : System) : Action → Prop
  | .tick ms => s.pc.searching = true → Respects s.des.timers s.relies.1 (s.relies.2 + ms)
  | .thread => ∀ t ∈ s.looked, Live t.2 → s.now ≤ t.2.triggerTime.toNat
  | .reset _ handle => ∀ t ∈ s.des.timers.take s.relies.1, t.1 = handle → t.2.originalTimes ≠ 0 →
      s.relies.2 ≤ (counter s.now + t.2.interval).toNat
  | .setInterval _ handle interval times =>
      ∀ t ∈ s.des.timers.take s.relies.1, t.1 = handle → times ≠ 0 →
        s.relies.2 ≤ (counter s.now + UInt32.ofNat interval.toNat).toNat
  | _ => True

instance (s : System) (a : Action) : Decidable (Harmless s a) := by
  unfold Harmless
  split <;> infer_instance

def System.Alerted (s : System) : Prop := 0 < s.des.signal.val ∨ s.Pending

def Allowed (s : System) (a : Action) : Prop := s.Alerted ∨ Harmless s a

structure Near (now : Nat) (n : TimerNode) : Prop where
  interval : n.interval.toNat < 2^31
  enabled : n.status = .enable → n.triggerTime.toNat < now + 2^31
  disabled : n.status = .disable → n.storeTime.toNat < 2^31 ∨ 2^32 ≤ n.storeTime.toNat + now

structure Inv (s : System) : Prop where
  binary : s.des.signal.maxVal = 1
  clock : s.now < 2^32
  near : ∀ t ∈ s.des.timers, Near s.now t.2
  adding : ∀ u address node, s.api u = .adding address node → Near s.now node
  kept : s.Alerted ∨ Respects s.des.timers s.relies.1 s.relies.2

theorem Near.later (h : Near now n) (hle : now ≤ now') : Near now' n where
  interval := h.interval
  enabled hstatus := by
    have := h.enabled hstatus
    omega
  disabled hstatus := by
    rcases h.disabled hstatus with hstore | hstore
    · exact .inl hstore
    · exact .inr (by omega)

theorem toNat_add_le (a b : UInt32) : (a + b).toNat ≤ a.toNat + b.toNat := by
  rw [UInt32.toNat_add]
  exact Nat.mod_le _ _

theorem toNat_counter_of_lt (h : now < 2^32) : (counter now).toNat = now := by
  rw [toNat_counter, Nat.mod_eq_of_lt h]

theorem near_armed (hclock : now < 2^32) (hinterval : n.interval.toNat < 2^31)
    (htrigger : n.triggerTime = counter now + n.interval) (hstatus : n.status = .enable) :
    Near now n where
  interval := hinterval
  enabled _ := by
    have hle := toNat_add_le (counter now) n.interval
    rw [toNat_counter_of_lt hclock] at hle
    rw [htrigger]
    omega
  disabled hdisabled := by
    rw [hstatus] at hdisabled
    cases hdisabled

theorem Near.reset (h : Near now n) (hclock : now < 2^32) : Near now (n.reset (counter now)) :=
  near_armed hclock h.interval rfl rfl

theorem Near.setStatus (h : Near now n) (hclock : now < 2^32) (status : TimerStatus) :
    Near now (n.setStatus status (counter now)) := by
  have htick := toNat_counter_of_lt hclock
  by_cases hsame : n.status = status
  · rw [setStatus_same hsame]
    exact h
  cases status with
  | disable =>
    -- what is left is below 2^31, or it is the negative of how long the time is over
    have henabled : n.status = .enable := by
      cases hn : n.status with
      | enable => rfl
      | disable => exact absurd hn hsame
    have htrigger := h.enabled henabled
    have hlt := n.triggerTime.toNat_lt
    rw [setStatus_disable henabled]
    refine ⟨h.interval, (by intro h; cases h), ?_⟩
    intro _
    dsimp only
    rw [UInt32.toNat_sub, htick]
    omega
  | enable =>
    have hdisabled : n.status = .disable := by
      cases hn : n.status with
      | enable => exact absurd hn hsame
      | disable => rfl
    have hlt := n.storeTime.toNat_lt
    rw [setStatus_enable hdisabled]
    refine ⟨h.interval, ?_, (by intro h; cases h)⟩
    intro _
    dsimp only
    rw [UInt32.toNat_add, htick]
    rcases h.disabled hdisabled with hstore | hstore <;> omega

theorem Near.onTick (h : Near now n) (hclock : now < 2^32)
    (hleft : (onTick n (counter now)).2.times ≠ 0) : Near now (onTick n (counter now)).2 := by
  cases hfires : (Timer.onTick n (counter now)).1 with
  | none =>
    rw [onTick_of_none hfires]
    exact h
  | some handling =>
    obtain ⟨hstatus, -, hexpired, -, hnext⟩ := onTick_of_some hfires
    obtain ⟨times, -, heq⟩ := hnext hleft
    rw [heq]
    refine ⟨h.interval, ?_, h.disabled⟩
    intro _
    have hle := toNat_add_le n.triggerTime n.interval
    have hinterval := h.interval
    rw [UInt32.le_iff_toNat_le, toNat_counter_of_lt hclock] at hexpired
    dsimp only
    omega

theorem minTimeout_le (min : UInt32) (n : TimerNode) (now : UInt32) :
    (minTimeout min n now).toNat ≤ min.toNat ∧
      (n.status = .enable → (minTimeout min n now).toNat ≤ (n.triggerTime - now).toNat) := by
  unfold minTimeout
  split
  · rename_i h
    have hlt := UInt32.lt_iff_toNat_lt.1 h.2
    exact ⟨by omega, fun _ => le_rfl⟩
  · rename_i h
    refine ⟨le_rfl, ?_⟩
    intro hstatus
    have hle : ¬n.triggerTime - now < min := fun hlt => h ⟨hstatus, hlt⟩
    rw [UInt32.lt_iff_toNat_lt] at hle
    omega

theorem onTimer_take {count : Nat} (h : onTimer handle f timers = some timers')
    (ht : t ∈ timers'.take count) : t ∈ timers.take count ∨
      ∃ n, timers.lookup handle = some n ∧ (handle, n) ∈ timers.take count ∧ t = (handle, f n) := by
  induction timers generalizing timers' count with
  | nil => cases h
  | cons first rest ih =>
    obtain ⟨address, n⟩ := first
    cases count with
    | zero => cases ht
    | succ count =>
      rw [onTimer] at h
      split at h
      · rename_i heq
        subst heq
        cases h
        rcases mem_cons.1 ht with rfl | ht
        · exact .inr ⟨n, by simp, by simp, rfl⟩
        · exact .inl (mem_cons_of_mem _ ht)
      · rename_i hne
        obtain ⟨rest', hrest, rfl⟩ := Option.map_eq_some_iff.1 h
        rcases mem_cons.1 ht with rfl | ht
        · exact .inl (by simp)
        · rcases ih hrest ht with hold | ⟨m, hm, hmem, rfl⟩
          · exact .inl (mem_cons_of_mem _ hold)
          · refine .inr ⟨m, ?_, mem_cons_of_mem _ hmem, rfl⟩
            rw [lookup_cons, beq_eq_false_iff_ne.2 (Ne.symm hne)]
            exact hm

section
variable {s : System}

theorem Alerted.update (h : s.Alerted) (hval : des.signal = s.des.signal) (ht : s.api t ≠ .giving) :
    (⟨des, now, pc, Function.update s.api t api⟩ : System).Alerted := by
  rcases h with hgiven | ⟨u, hu⟩
  · exact .inl (hval ▸ hgiven)
  · refine .inr ⟨u, ?_⟩
    have hut : u ≠ t := by
      rintro rfl
      exact ht hu
    change Function.update s.api t api u = .giving
    rw [Function.update_of_ne hut]
    exact hu

theorem adding_update {now t : Nat} {api : Nat → Api}
    (h : ∀ u address node, api u = .adding address node → Near now node)
    (hx : ∀ address node, x = .adding address node → Near now node) :
    ∀ u address node, Function.update api t x u = .adding address node → Near now node := by
  intro u address node hu
  by_cases hut : u = t
  · rw [hut, Function.update_self] at hu
    exact hx address node hu
  · rw [Function.update_of_ne hut] at hu
    exact h u address node hu

theorem Inv.enters (h : Inv s) {t : Nat} {des : TimerDes} (ht : s.api t = .idle)
    (hs : s.enters t des .idle = some s') (hsignal : des.signal = s.des.signal)
    (htimeout : des.timeout = s.des.timeout) (hlength : des.timers.length = s.des.timers.length)
    (hnear : ∀ t ∈ des.timers, Near s.now t.2)
    (hkept : s.Alerted ∨ Respects des.timers s.relies.1 s.relies.2) : Inv s' := by
  rw [System.enters] at hs
  split at hs
  · cases hs
  cases hs
  have hrelies : (⟨des, s.now, s.pc, Function.update s.api t .idle⟩ : System).relies =
    s.relies := by
    unfold System.relies
    rw [hlength, htimeout]
  refine ⟨?_, h.clock, hnear, adding_update h.adding (fun _ _ h => by cases h), ?_⟩
  · rw [hsignal]
    exact h.binary
  · rw [hrelies]
    apply hkept.imp_left fun halerted => Alerted.update halerted hsignal _
    rw [ht]
    exact nofun

theorem onTimer_length (h : onTimer handle f timers = some timers') :
    timers'.length = timers.length := by
  obtain ⟨before, n, after, rfl, rfl⟩ := onTimer_eq_some h
  simp

section
variable (h : Inv s)
include h

theorem Inv.near_found (hfound : onTimer handle f s.des.timers = some timers)
    (hnear : ∀ n, Near s.now n → Near s.now (f n)) : ∀ t ∈ timers, Near s.now t.2 := by
  intro t ht
  have htake : t ∈ timers.take timers.length := by rwa [take_length]
  rcases onTimer_take hfound htake with hold | ⟨n, -, hn, rfl⟩
  · exact h.near t (mem_of_mem_take hold)
  · exact hnear n (h.near _ (mem_of_mem_take hn))

theorem Inv.arms (ht : s.api t = .idle)
    (hs : s.enters t (s.des.answer (onTimer handle f s.des.timers)).2 .idle = some s')
    (hnear : ∀ n, Near s.now n → Near s.now (f n))
    (hlive : s.Alerted ∨ ∀ n, (handle, n) ∈ s.des.timers.take s.relies.1 → Live (f n) →
      s.relies.2 ≤ (f n).triggerTime.toNat) : Inv s' := by
  cases hfound : onTimer handle f s.des.timers with
  | none =>
    rw [hfound] at hs
    exact h.enters ht hs rfl rfl rfl h.near h.kept
  | some timers =>
    rw [hfound] at hs
    apply h.enters ht hs rfl rfl (onTimer_length hfound)
    · exact h.near_found hfound hnear
    · refine hlive.elim .inl fun hlive => h.kept.imp_right fun hkept t ht hlives => ?_
      rcases onTimer_take hfound ht with hold | ⟨n, -, hn, rfl⟩
      · exact hkept t hold hlives
      · exact hlive n hn hlives

theorem Inv.refuses (ht : s.api t = .idle) (hs : s.enters t s.des .idle = some s') : Inv s' :=
  h.enters ht hs rfl rfl rfl h.near h.kept

theorem inv_reset (ht : s.api t = .idle)
    (hallowed : Allowed s (.reset t handle)) (hs : apiStep s t (.reset t handle) = some s') :
    Inv s' := by
  rw [apiStep, swTimerReset] at hs
  split at hs
  · exact h.refuses ht hs
  · apply h.arms ht hs (fun n hn => hn.reset h.clock)
    exact hallowed.imp_right fun hharmless n hn hlive => hharmless _ hn rfl hlive.2

theorem inv_setInterval (ht : s.api t = .idle)
    (hallowed : Allowed s (.setInterval t handle interval times))
    (hs : apiStep s t (.setInterval t handle interval times) = some s') : Inv s' := by
  rw [apiStep] at hs
  split at hs
  case isFalse => cases hs
  rename_i hint
  rw [swTimerSetInterval] at hs
  split at hs
  · exact h.refuses ht hs
  · rename_i hchecks
    have hinterval : (UInt32.ofNat interval.toNat).toNat < 2^31 := by
      rw [UInt32.toNat_ofNat']
      omega
    apply h.arms ht hs (fun n _ => near_armed h.clock hinterval rfl rfl)
    exact hallowed.imp_right fun hharmless n hn hlive => hharmless _ hn rfl hlive.2

theorem inv_setStatus {t handle : Nat} {code : Int} (ht : s.api t = .idle)
    (hs : apiStep s t (.setStatus t handle code) = some s') : Inv s' := by
  rw [apiStep] at hs
  cases hsection : setStatusSection s.des handle code (counter s.now) with
  | none =>
    rw [hsection] at hs
    exact h.refuses ht hs
  | some r =>
    obtain ⟨gives, des⟩ := r
    rw [hsection] at hs
    obtain ⟨status, -, hsection⟩ := Option.bind_eq_some_iff.1 hsection
    split at hsection
    · cases hsection
    obtain ⟨node, hnode, hsection⟩ := Option.bind_eq_some_iff.1 hsection
    obtain ⟨timers, hfound, hsection⟩ := Option.bind_eq_some_iff.1 hsection
    cases hsection
    have hnear := h.near_found hfound fun n hn => hn.setStatus h.clock status
    cases hgives : node.status == .disable && status == .enable with
    | true =>
      rw [hgives] at hs
      dsimp only at hs
      rw [System.enters] at hs
      split at hs
      · cases hs
      cases hs
      refine ⟨h.binary, h.clock, hnear, adding_update h.adding (fun _ _ h => by cases h), ?_⟩
      exact .inl (.inr ⟨t, Function.update_self _ _ _⟩)
    | false =>
      rw [hgives] at hs
      apply h.enters ht hs rfl rfl (onTimer_length hfound) hnear
      refine h.kept.imp_right fun hkept t ht hlive => ?_
      rcases onTimer_take hfound ht with hold | ⟨n, hn, hmem, rfl⟩
      · exact hkept t hold hlive
      · -- the timer is not enabled by this call: it was live before
        cases Option.some.inj (hnode.symm.trans hn)
        have hsame : node.status = status := by
          obtain ⟨hstatus, -⟩ := hlive
          cases hbefore : node.status <;> cases status <;> simp_all [TimerNode.setStatus]
        rw [setStatus_same hsame] at hlive ⊢
        exact hkept _ hmem hlive

theorem inv_create {t address : Nat} {block : TimerNode} (ht : s.api t = .idle)
    (hs : apiStep s t (.create t address block name interval times handler) = some s') :
    Inv s' := by
  rw [apiStep] at hs
  split at hs
  case isFalse => cases hs
  rename_i hint
  cases hs
  refine ⟨h.binary, h.clock, h.near, adding_update h.adding ?_, ?_⟩
  · intro address' node hnode
    split at hnode
    · cases hnode
    · rename_i node' hcreate
      cases hnode
      obtain ⟨name, -, hcreate⟩ := Option.bind_eq_some_iff.1 hcreate
      split at hcreate
      · cases hcreate
      · rename_i hchecks
        cases hcreate
        apply near_armed h.clock _ rfl rfl
        change (UInt32.ofNat interval.toNat).toNat < 2^31
        rw [UInt32.toNat_ofNat']
        omega
  · apply h.kept.imp_left fun halerted => Alerted.update halerted rfl _
    rw [ht]
    exact nofun

theorem inv_advance {t : Nat} (hs : step s (.advance t) = some ((), s')) : Inv s' := by
  rw [step] at hs
  split at hs
  · cases hs
  · rename_i address node ht
    obtain ⟨s₁, hs₁, hs⟩ := Option.map_eq_some_iff.1 hs
    cases hs
    rw [System.enters] at hs₁
    split at hs₁
    · cases hs₁
    cases hs₁
    have hfields : (addTimerSection s.des address node (counter s.now)).signal = s.des.signal ∧
        (addTimerSection s.des address node (counter s.now)).timers =
          s.des.timers ++ [(address, node)] := by
      unfold addTimerSection upgradeTimeout
      split <;> exact ⟨rfl, rfl⟩
    refine ⟨?_, h.clock, ?_, adding_update h.adding (fun _ _ h => by cases h), ?_⟩
    · rw [hfields.1]
      exact h.binary
    · dsimp only
      rw [hfields.2]
      exact forall_mem_append.2 ⟨h.near, forall_mem_singleton.2 (h.adding t address node ht)⟩
    · exact .inl (.inr ⟨t, Function.update_self _ _ _⟩)
  · cases hs
    refine ⟨(swSignalGive_maxVal _).trans h.binary, h.clock, h.near,
      adding_update h.adding (fun _ _ h => by cases h), ?_⟩
    exact .inl (.inl (swSignalGive_pos h.binary))

theorem near_pass : ∀ t ∈ (threadSection s.des
    (replicate s.des.timers.length (counter s.now))).2.timers, Near s.now t.2 := by
  intro t ht
  obtain ⟨ht, hleft⟩ := mem_filter.1 ht
  obtain ⟨v, hv, rfl⟩ := mem_map.1 ht
  rw [← map_uncurry_zip_eq_zipWith] at hv
  obtain ⟨⟨now, x⟩, hlook, rfl⟩ := mem_map.1 hv
  obtain ⟨hnow, hx⟩ := of_mem_zip hlook
  cases eq_of_mem_replicate hnow
  exact (h.near x hx).onTick h.clock (of_decide_eq_true hleft)

theorem Inv.forgets (hmax : des.signal.maxVal = s.des.signal.maxVal)
    (hnear : ∀ t ∈ des.timers, Near s.now t.2)
    (hnone : (⟨des, s.now, pc, s.api⟩ : System).relies.1 = 0) : Inv ⟨des, s.now, pc, s.api⟩ := by
  refine ⟨hmax.trans h.binary, h.clock, hnear, h.adding, .inr ?_⟩
  rw [hnone]
  exact forall_mem_nil _

end

theorem Respects.scan {i : Nat} {min : UInt32} (hclock : s.now < 2^32)
    (h : Respects s.des.timers i (s.now + min.toNat)) (hi : s.des.timers[i]? = some t)
    (hdue : Live t.2 → s.now ≤ t.2.triggerTime.toNat) :
    Respects s.des.timers (i + 1) (s.now + (minTimeout min t.2 (counter s.now)).toNat) := by
  obtain ⟨hmin, hown⟩ := minTimeout_le min t.2 (counter s.now)
  intro x hx hlive
  rw [take_add_one, hi] at hx
  rcases mem_append.1 hx with hold | hnew
  · have := h x hold hlive
    omega
  · simp only [Option.toList_some, mem_singleton] at hnew
    subst hnew
    have hle := hown hlive.1
    have hlt := x.2.triggerTime.toNat_lt
    have := hdue hlive
    rw [UInt32.toNat_sub, toNat_counter_of_lt hclock] at hle
    omega

theorem inv_scan (h : Inv s) {i : Nat} {min : UInt32} (hpc : s.pc = .scan i min held)
    (hallowed : Allowed s .thread) (hs : threadStep s = some s') : Inv s' := by
  have hkept := h.kept
  simp only [System.relies, hpc] at hkept
  simp only [threadStep, hpc] at hs
  cases hi : s.des.timers[i]? with
  | none =>
    rw [hi] at hs
    cases hs
    refine ⟨h.binary, h.clock, h.near, h.adding, hkept.imp_right fun hkept => ?_⟩
    change Respects s.des.timers s.des.timers.length (s.now + min.toNat)
    rwa [Respects, take_length, ← take_of_length_le (getElem?_eq_none_iff.1 hi)]
  | some t =>
    rw [hi] at hs
    cases hs
    refine ⟨h.binary, h.clock, h.near, h.adding, ?_⟩
    rcases hallowed with halerted | hharmless
    · exact .inl halerted
    have hlooked : s.looked = some t := by simp only [System.looked, hpc, hi]
    exact hkept.imp_right fun hkept => hkept.scan h.clock hi (hharmless t hlooked)

/-- The deadline of the wait is the time the search has found, which is less than `2^31` ahead. -/
theorem inv_ready (h : Inv s) (hpc : s.pc = .ready) (hs : threadStep s = some s') : Inv s' := by
  have hkept := h.kept
  simp only [System.relies, hpc] at hkept
  simp only [threadStep, hpc] at hs
  cases hs
  refine ⟨h.binary, h.clock, h.near, h.adding, hkept.imp_right ?_⟩
  intro hkept x hx hlive
  have hmem : x ∈ s.des.timers.take s.des.timers.length := by
    rw [take_length]
    exact mem_of_mem_take hx
  have hbound := hkept x hmem hlive
  have htrigger := (h.near x (mem_of_mem_take hmem)).enabled hlive.1
  have htimeout : s.des.timeout.toNat < 2^31 := by omega
  simp only [System.relies, deadline, htimeout, if_true]
  exact hbound

theorem inv_thread (h : Inv s) (hallowed : Allowed s .thread) (hs : threadStep s = some s') :
    Inv s' := by
  cases hpc : s.pc with
  | scan i min held => exact inv_scan h hpc hallowed hs
  | ready => exact inv_ready h hpc hs
  | top | enter | lock min =>
    simp only [threadStep, hpc] at hs
    cases hs
    exact h.forgets rfl h.near rfl
  | store min =>
    have hkept := h.kept
    simp only [System.relies, hpc] at hkept
    simp only [threadStep, hpc] at hs
    cases hs
    exact ⟨h.binary, h.clock, h.near, h.adding, hkept⟩
  | waiting deadline =>
    simp only [threadStep, hpc] at hs
    split at hs
    · cases hs
      exact h.forgets rfl h.near rfl
    · split at hs
      · cases hs
        exact h.forgets rfl h.near rfl
      · cases hs
  | pass =>
    simp only [threadStep, hpc] at hs
    cases hs
    exact h.forgets rfl (near_pass h) rfl

theorem inv_tick (h : Inv s) (hallowed : Allowed s (.tick ms))
    (hs : step s (.tick ms) = some ((), s')) : Inv s' := by
  rw [step] at hs
  split at hs
  case isFalse => cases hs
  rename_i hclock
  cases hs
  refine ⟨h.binary, hclock, fun t ht => (h.near t ht).later (Nat.le_add_right _ _),
    fun u address node hu => (h.adding u address node hu).later (Nat.le_add_right _ _), ?_⟩
  rcases hallowed with halerted | hharmless
  · exact .inl halerted
  refine h.kept.imp_right ?_
  intro hkept
  cases hsearching : s.pc.searching with
  | true =>
    have hrelies : ({ s with now := s.now + ms } : System).relies =
      (s.relies.1, s.relies.2 + ms) := by
      cases hpc : s.pc with
      | scan i min held | store min | ready => simp only [System.relies, hpc, Nat.add_right_comm]
      | _ =>
        rw [hpc] at hsearching
        cases hsearching
    rw [hrelies]
    exact hharmless hsearching
  | false =>
    have hrelies : ({ s with now := s.now + ms } : System).relies = s.relies := by
      cases hpc : s.pc with
      | scan i min held | store min | ready =>
        rw [hpc] at hsearching
        cases hsearching
      | waiting deadline => cases deadline <;> simp only [System.relies, hpc]
      | _ => simp only [System.relies, hpc]
    rw [hrelies]
    exact hkept

theorem Inv.step (h : Inv s) (hallowed : Allowed s a) (hs : step s a = some ((), s')) : Inv s' := by
  cases a with
  | tick ms => exact inv_tick h hallowed hs
  | thread =>
    obtain ⟨s₁, hs₁, heq⟩ := Option.map_eq_some_iff.1 hs
    cases heq
    exact inv_thread h hallowed hs₁
  | advance t => exact inv_advance h hs
  | create _ _ _ _ _ _ _ | reset _ _ | setInterval _ _ _ _ | setStatus _ _ _ =>
    rw [Waiting.step] at hs
    split at hs
    · rename_i ht
      obtain ⟨s₁, hs₁, heq⟩ := Option.map_eq_some_iff.1 hs
      cases heq
      first
        | exact inv_create h ht hs₁
        | exact inv_reset h ht hallowed hs₁
        | exact inv_setInterval h ht hallowed hs₁
        | exact inv_setStatus h ht hs₁
    · cases hs

theorem Inv.attended (h : Inv s) : Attended s := by
  intro deadline hpc hval
  rcases h.kept with (hgiven | hpending) | hkept
  · omega
  · exact .inl hpending
  right
  intro t ht hlive
  have hmem : t ∈ s.des.timers.take s.des.timers.length := by rwa [take_length]
  cases deadline with
  | none =>
    -- no trigger time of 32 bits is that late
    simp only [System.relies, hpc] at hkept
    have hlate := hkept t hmem hlive
    have hlt := t.2.triggerTime.toNat_lt
    omega
  | some d =>
    simp only [System.relies, hpc] at hkept
    exact ⟨d, rfl, hkept t hmem hlive⟩

theorem inv_start : Inv .start where
  binary := rfl
  clock := by decide
  near := forall_mem_nil _
  adding u address node hu := by cases hu
  kept := .inr (forall_mem_nil _)

/-- As long as only harmless steps are taken when nobody is going to wake the thread, it sleeps
through no timer. -/
theorem run_attended {history : List (Action × Unit)} (hrun : Run step Allowed .start history s) :
    Attended s := by
  have hinv : Inv s := by
    apply Run.invariant (fun _ s => Inv s) inv_start _ hrun
    intro history s a b s' h hallowed hs
    exact h.step hallowed hs
  exact hinv.attended

end

def created : List Action :=
  [.create 0 8 zeroBlock (some .empty) 100 (-1) 4, .advance 0, .advance 0,
   .thread, .thread, .thread, .thread, .thread, .thread, .thread, .thread, .thread,
   .tick 10, .thread, .thread, .thread, .thread, .thread, .thread, .thread]

/-- The thread sleeps until the timer's time, which is 100. -/
theorem run_attended_created : ∃ (history : List (Action × Unit)) (s : System),
    exec step Harmless .start created = some (history, s) ∧ s.pc = .waiting (some 100) ∧
    s.des.signal.val = 0 ∧ s.des.timers.map (·.2.triggerTime) = [100] ∧ Attended s := by
  refine exists_exec (fun _ s => s.pc = .waiting (some 100) ∧ s.des.signal.val = 0 ∧
    s.des.timers.map (·.2.triggerTime) = [100]) (by decide +kernel) ?_
  rintro history s he ⟨hpc, hval, htimers⟩
  have hrun : Run step Allowed .start history s :=
    Run.mono (fun _ _ hharmless => Or.inr hharmless) (Run.of_exec he)
  exact ⟨hpc, hval, htimers, run_attended hrun⟩

def Api.isIdle : Api → Bool
  | .idle => true
  | _ => false

def Action.caller : Action → Option Nat
  | .create t _ _ _ _ _ _ => some t
  | .advance t => some t
  | .reset t _ => some t
  | .setInterval t _ _ _ => some t
  | .setStatus t _ _ => some t
  | _ => none

theorem enters_api {s s' : System} (h : s.enters t des api = some s') (hu : u ≠ t) :
    s'.api u = s.api u := by
  rw [System.enters] at h
  split at h
  · cases h
  · cases h
    exact Function.update_of_ne hu _ _

theorem threadStep_api (h : threadStep s = some s') : s'.api = s.api := by
  unfold threadStep at h
  repeat' split at h
  all_goals cases h
  all_goals rfl

theorem apiStep_api {s s' : System} (h : apiStep s t a = some s') (hu : u ≠ t) :
    s'.api u = s.api u := by
  cases a with
  | create =>
    rw [apiStep] at h
    split at h
    · cases h
      exact Function.update_of_ne hu _ _
    · cases h
  | reset => exact enters_api h hu
  | setInterval =>
    rw [apiStep] at h
    split at h
    · exact enters_api h hu
    · cases h
  | setStatus =>
    rw [apiStep] at h
    split at h <;> exact enters_api h hu
  | tick | thread | advance => cases h

theorem step_api {s s' : System} (h : step s a = some ((), s'))
    (hu : a.caller ≠ some u) : s'.api u = s.api u := by
  cases a with
  | tick =>
    rw [step] at h
    split at h
    · cases h
      rfl
    · cases h
  | thread =>
    obtain ⟨_, h, heq⟩ := Option.map_eq_some_iff.1 h
    cases heq
    rw [threadStep_api h]
  | advance t =>
    have hut : u ≠ t := by
      rintro rfl
      exact hu rfl
    rw [step] at h
    split at h
    · cases h
    · obtain ⟨_, h, heq⟩ := Option.map_eq_some_iff.1 h
      cases heq
      exact enters_api h hut
    · cases h
      exact Function.update_of_ne hut _ _
  | create | reset | setInterval | setStatus =>
    rw [step] at h
    split at h
    · obtain ⟨_, h, heq⟩ := Option.map_eq_some_iff.1 h
      cases heq
      apply apiStep_api h
      rintro rfl
      exact hu rfl
    · cases h

theorem run_api {guard : System → Action → Prop} (hrun : Run step guard .start history s)
    (hu : ∀ a ∈ history, a.1.caller ≠ some u) : s.api u = .idle := by
  induction hrun with
  | start => rfl
  | next _ _ hs ih =>
    rw [step_api hs (hu _ (mem_append_right _ (mem_singleton_self _)))]
    exact ih fun a ha => hu a (mem_append_left _ ha)

/-- `sw_timer_set_interval` wakes nobody: the timer is due at 20, and the thread sleeps until
100. -/
theorem interval_is_slept_through : ∃ (history : List (Action × Unit)) (s : System),
    exec step (fun _ _ => True) .start (created ++ [.setInterval 0 8 10 (-1)]) = some (history, s) ∧
    s.pc = .waiting (some 100) ∧ s.des.signal.val = 0 ∧ s.now = 10 ∧
    s.des.timers.map (·.2.triggerTime) = [20] ∧ (∀ t ∈ s.des.timers, Live t.2) ∧
    (∀ t, s.api t = .idle) ∧ ¬Attended s := by
  refine exists_exec (fun history s => s.pc = .waiting (some 100) ∧ s.des.signal.val = 0 ∧
    s.now = 10 ∧ s.des.timers.map (·.2.triggerTime) = [20] ∧ (∀ t ∈ s.des.timers, Live t.2) ∧
      (s.api 0).isIdle = true ∧
      ∀ a ∈ history, a.1.caller.all (· == 0) = true) (by decide +kernel) ?_
  rintro history s he ⟨hpc, hval, hnow, htimers, hlive, hzero, hcallers⟩
  have hidle (t : Nat) : s.api t = .idle := by
    by_cases ht : t = 0
    · subst ht
      cases hapi : s.api 0 with
      | idle => rfl
      | adding | giving => simp [hapi, Api.isIdle] at hzero
    · apply run_api (Run.of_exec he)
      intro a ha hcaller
      have hall := hcallers a ha
      rw [hcaller, Option.all_some, beq_iff_eq] at hall
      exact ht hall
  refine ⟨hpc, hval, hnow, htimers, hlive, hidle, ?_⟩
  intro hattended
  obtain ⟨t, hlist, ht⟩ := map_eq_singleton_iff.1 htimers
  have hmem : t ∈ s.des.timers := by simp [hlist]
  rcases hattended _ hpc hval with ⟨u, hu⟩ | hdue
  · rw [hidle] at hu
    cases hu
  · obtain ⟨d, hd, hle⟩ := hdue t hmem (hlive t hmem)
    cases hd
    rw [ht] at hle
    exact absurd hle (by decide)

end SwApi.Timer.Waiting
