import SwApi.Timer.Runs

/-! When a timer fires. `on_tick` compares 32-bit numbers that count units of 10 ms: a timer whose
moment lies behind the next wrap of the tick counts as due at once, and a unit that has only begun
counts as a whole. -/
namespace SwApi.Timer
open Library Os List

def Watch.due (w : Watch) : Nat := (w.fired + 1) * w.interval

/-- At its `k`-th call since it was armed a timer has been enabled for `k` intervals. -/
def Firing.OnTime (f : Firing) : Prop := f.watch.due ≤ f.watch.enabled f.now
  deriving Decidable

/-- The moment at which a timer that is enabled is due by the clock. -/
def Watch.moment (w : Watch) : Int := clock w.since + w.due - w.counted

/-- At the look at a timer that has not been enabled for its time, the tick is still below the
moment at which the timer is due by the clock, both taken as 32-bit numbers. -/
def Ahead (s : System) : Call → Prop
  | .pass nows => ∀ v ∈ nows.zip s.des.timers, v.2.2.status = .enable → v.2.2.times ≠ 0 →
      (s.watch v.2.1).enabled v.1 < (s.watch v.2.1).due →
        (clock v.1 : Int) % 2^32 < (s.watch v.2.1).moment % 2^32
  | _ => True

instance (s : System) (c : Call) : Decidable (Ahead s c) := by
  rcases c with _ | _ <;> dsimp only [Ahead] <;> infer_instance

structure Timed (time : Nat) (n : TimerNode) (w : Watch) : Prop where
  interval : n.interval = counter w.interval
  times : -1 ≤ n.times
  originalTimes : -1 ≤ n.originalTimes
  status : n.status = if w.running then .enable else .disable
  since : w.since ≤ time
  running : w.running = true → n.triggerTime + counter w.counted = counter (clock w.since + w.due)
  paused : w.running = false → n.storeTime + counter w.counted = counter w.due

section
variable {w : Watch}

theorem Timed.later (h : Timed time n w) (hnow : time ≤ now) : Timed now n w :=
  { h with since := h.since.trans hnow }

theorem Timed.isRunning (h : Timed time n w) (hstatus : n.status = .enable) : w.running = true := by
  have hs := h.status
  cases hrunning : w.running with
  | true => rfl
  | false =>
    rw [hrunning, hstatus] at hs
    cases hs

theorem timed_arm (hinterval : n.interval = counter interval) (htimes : -1 ≤ n.times)
    (horiginal : -1 ≤ n.originalTimes) (hstatus : n.status = .enable)
    (htrigger : n.triggerTime = tick now + n.interval) : Timed now n (w.arm interval now) where
  interval := hinterval
  times := htimes
  originalTimes := horiginal
  status := hstatus
  since := le_rfl
  running _ := by
    rw [htrigger, hinterval, tick_eq]
    simp [Watch.arm, Watch.due, counter]
  paused h := by cases h

/-- `sw_timer_set_status` moves the moment of the next call by the time the timer is disabled. -/
theorem Timed.setStatus (h : Timed time n w) (hnow : time ≤ now) (status : TimerStatus) :
    Timed now (n.setStatus status (tick now)) (w.setStatus status now) := by
  have hlater := h.later hnow
  have hstatus := h.status
  cases hrunning : w.running with
  | true =>
    rw [hrunning, if_pos rfl] at hstatus
    cases status with
    | enable =>
      have hw : w.setStatus .enable now = w := by simp [Watch.setStatus, hrunning]
      rw [setStatus_same hstatus, hw]
      exact hlater
    | disable =>
      have hclock := h.running hrunning
      have hw : w.setStatus .disable now =
          { w with
            banked := w.enabled now, counted := w.counted + (clock now - clock w.since), running :=
              false } := by
        simp [Watch.setStatus, hrunning]
      rw [hw, setStatus_disable hstatus, tick_eq]
      refine { hlater with status := rfl, running := fun h => (by cases h), paused := fun _ => ?_ }
      change _ = counter w.due
      dsimp only
      rw [counter_add] at hclock
      rw [counter_add, counter_sub (clock_mono hlater.since)]
      grind
  | false =>
    rw [hrunning, if_neg Bool.false_ne_true] at hstatus
    cases status with
    | disable =>
      have hw : w.setStatus .disable now = w := by simp [Watch.setStatus, hrunning]
      rw [setStatus_same hstatus, hw]
      exact hlater
    | enable =>
      have hclock := h.paused hrunning
      have hw : w.setStatus .enable now = { w with since := now, running := true } := by
        simp [Watch.setStatus, hrunning]
      rw [hw, setStatus_enable hstatus, tick_eq]
      refine { hlater with
        status := rfl, since := le_rfl, running := fun _ => ?_, paused := fun h => (by cases h) }
      change _ = counter (clock now + w.due)
      dsimp only
      rw [counter_add]
      grind

theorem Timed.expired_iff (h : Timed time n w) (hrunning : w.running = true) :
    n.triggerTime ≤ tick now ↔ ¬(clock now : Int) % 2^32 < w.moment % 2^32 := by
  have hclock := congrArg UInt32.toNat (h.running hrunning)
  have htrigger := n.triggerTime.toNat_lt
  rw [UInt32.toNat_add, toNat_counter, toNat_counter] at hclock
  rw [tick_eq, UInt32.le_iff_toNat_le, toNat_counter, Watch.moment]
  omega

end

theorem timed_of_created (h : Created s address c n' w') : Timed (c.ends s.time) n' w' := by
  cases h with
  | intro hstart hnow hpos hint htimes =>
    rename_i block name interval times handling start now
    have harmed : Timed start (initNode block name interval times handling.handler (tick start))
        ((s.watch address).arm interval.toNat start) :=
      timed_arm rfl htimes htimes rfl rfl
    exact { harmed.later hnow with }

theorem Timed.change (h : Timed s.time n (s.watch address)) (hle : s.time ≤ c.ends s.time)
    (hchange : Change s address n c n' w') : Timed (c.ends s.time) n' w' := by
  cases hchange with
  | same => exact h.later hle
  | supplied => exact { h.later hle with }
  | reset hnow => exact timed_arm h.interval h.originalTimes h.originalTimes rfl rfl
  | setInterval hnow hpos hint htimes => exact timed_arm rfl htimes htimes rfl rfl
  | setStatus hstatus hnow => exact h.setStatus hnow _
  | fired hlook hnow hends hfires hleft =>
    obtain ⟨hstatus, -, -, -, hnext⟩ := onTick_of_some hfires
    obtain ⟨times, htimes, heq⟩ := hnext hleft
    have hrunning := h.isRunning hstatus
    rw [heq]
    refine { h.later hle with times := htimes, running := fun _ => ?_, paused := fun hpaused => ?_ }
    · have hclock := h.running hrunning
      have hdue : (s.watch address).fire.due = (s.watch address).due + (s.watch address).interval :=
        Nat.succ_mul ..
      change n.triggerTime + n.interval + counter (s.watch address).counted =
        counter (clock (s.watch address).since + (s.watch address).fire.due)
      rw [h.interval, hdue, ← Nat.add_assoc, counter_add, ← hclock]
      grind
    · change (s.watch address).running = false at hpaused
      rw [hrunning] at hpaused
      cases hpaused

structure System.Timed (s : System) : Prop where
  distinct : s.Distinct
  timers : ∀ a n, (a, n) ∈ s.des.timers → Timer.Timed s.time n (s.watch a)

/-- A pass fires no timer early exactly when the tick is ahead of none that is not due yet. -/
theorem System.Timed.onTime_iff (h : s.Timed) (hs : step s c = some (fs, s')) :
    (∀ f ∈ fs, f.OnTime) ↔ Ahead s c := by
  rcases step_firings hs with ⟨nows, rfl, rfl, -, -⟩ | ⟨hother, rfl⟩
  · constructor
    · rintro hontime ⟨now, a, n⟩ hv hstatus htimes hearly
      have htimed := h.timers a n (of_mem_zip hv).2
      by_contra hahead
      have hexpired := (htimed.expired_iff (htimed.isRunning hstatus)).2 hahead
      have hfires := onTick_fires hstatus htimes htimed.times hexpired
      have honTime := hontime ⟨a, now, n.handling, s.watch a⟩ (mem_firings.2 ⟨n, hv, hfires, rfl⟩)
      exact absurd honTime (Nat.not_le.2 hearly)
    · intro hahead f hf
      obtain ⟨n, hv, hfires, hwatch⟩ := mem_firings.1 hf
      obtain ⟨hstatus, htimes, hexpired, -, -⟩ := onTick_of_some hfires
      have htimed := h.timers f.address n (of_mem_zip hv).2
      rw [Firing.OnTime, hwatch]
      by_contra hearly
      have hbelow : (clock f.now : Int) % 2^32 < (s.watch f.address).moment % 2^32 :=
        hahead (f.now, f.address, n) hv hstatus htimes (Nat.not_le.1 hearly)
      exact (htimed.expired_iff (htimed.isRunning hstatus)).1 hexpired hbelow
  · refine iff_of_true (by simp) ?_
    cases c with
    | pass nows => exact absurd rfl (hother nows)
    | _ => trivial

theorem System.Timed.step (h : s.Timed) (hs : step s c = some (fs, s')) : s'.Timed := by
  obtain ⟨hdistinct, hle, htime, htimers⟩ := step_changes h.distinct hs
  refine ⟨hdistinct, ?_⟩
  intro a n' hn'
  rw [htime]
  rcases htimers a n' hn' with hcreated | ⟨n, hn, hchange⟩
  · exact timed_of_created hcreated
  · exact (h.timers a n hn).change (htime ▸ hle) hchange

/-- In a run in which the tick never counts up to the moment of a timer that has still to wait, no
timer is ever fired early; and the next step fires none early exactly when the same holds of it. -/
theorem run_onTime {time : Nat} {watch : Nat → Watch} {history : List (Call × List Firing)}
    (hrun : Run step Ahead (.start time watch) history s) :
    (∀ entry ∈ history, ∀ f ∈ entry.2, f.OnTime) ∧
      ∀ c fs s', step s c = some (fs, s') → ((∀ f ∈ fs, f.OnTime) ↔ Ahead s c) := by
  refine hrun.answers_iff System.Timed ⟨by exact nodup_nil, ?_⟩ ?_ System.Timed.onTime_iff
  · intro a n hn
    cases hn
  · intro s c fs s' h _ hs
    exact h.step hs

/-- A timer of 50 ms is disabled for 870 ms and fires when it has been enabled for 50 ms; its
second call falls behind a wrap of the tick. -/
theorem run_onTime_paused : ∃ (history : List (Call × List Firing)) (s : System),
    exec step Ahead (.start (2^32 - 1000) noWatch)
      [.create 8 zeroBlock (some .empty) 50 (-1) ⟨4, 0, 0⟩ (2^32 - 950) (2^32 - 950),
       .pass [2^32 - 940], .setStatus 8 0 (2^32 - 930), .setStatus 8 1 (2^32 - 60),
       .pass [2^32 - 50], .pass [2^32 - 20], .pass [2^32 + 30]] = some (history, s) ∧
    history.map (fun entry => entry.2.map (·.now)) = [[], [], [], [], [], [2^32 - 20],
    [2^32 + 30]] ∧ ∀ entry ∈ history, ∀ f ∈ entry.2, f.OnTime := by
  refine exists_exec (fun history _ => history.map (fun entry => entry.2.map (·.now)) =
    [[], [], [], [], [], [2^32 - 20], [2^32 + 30]]) (by decide +kernel) ?_
  intro history s he hfired
  exact ⟨hfired, (run_onTime (.of_exec he)).1⟩

/-- Five seconds before the tick wraps a timer of ten seconds fires after 10 ms: its trigger time
is below 5000, which is less than any tick before the wrap. And a timer of 10 ms that is armed at
the end of a unit fires after 1 ms. -/
theorem timer_fires_early : (∃ (history : List (Call × List Firing)) (s : System),
    exec step (fun _ _ => True) (.start 0 noWatch)
      [.create 8 zeroBlock (some .empty) 10000 (-1) ⟨4, 0, 0⟩ (2^32 - 5000) (2^32 - 5000),
       .pass [2^32 - 4990]] = some (history, s) ∧
    ∃ f ∈ history.flatMap Prod.snd, f.watch.interval = 10000 ∧ f.watch.enabled f.now = 10 ∧
    ¬f.OnTime) ∧
  ∃ (history : List (Call × List Firing)) (s : System),
    exec step (fun _ _ => True) (.start 0 noWatch)
      [.create 8 zeroBlock (some .empty) 10 (-1) ⟨4, 0, 0⟩ 9 9, .pass [10]] = some (history, s) ∧
    ∃ f ∈ history.flatMap Prod.snd, f.watch.interval = 10 ∧ f.watch.enabled f.now = 1 ∧ ¬f.OnTime :=
  ⟨exists_of_exec _ _ _ _ _ (by decide +kernel), exists_of_exec _ _ _ _ _ (by decide +kernel)⟩

end SwApi.Timer
