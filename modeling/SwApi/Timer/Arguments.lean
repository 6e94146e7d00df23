import SwApi.Timer.Runs

/-! What the handlers are called with. `sw_timer_create` does not store the two parameters. -/
namespace SwApi.Timer
open Library Os List

def Firing.AsSupplied (f : Firing) : Prop := f.handling = f.watch.supplied
  deriving Decidable

/-- A timer that was made from a block with other parameters is not due before parameters are
set for it. -/
def Initialised (s : System) : Call → Prop
  | .pass nows => ∀ v ∈ nows.zip s.des.timers, (s.watch v.2.1).stale = true →
      ¬(v.2.2.status = .enable ∧ v.2.2.times ≠ 0 ∧ v.2.2.expired (tick v.1) = true)
  | _ => True

instance (s : System) (c : Call) : Decidable (Initialised s c) := by
  unfold Initialised
  split <;> infer_instance

structure Told (n : TimerNode) (w : Watch) : Prop where
  times : -1 ≤ n.times
  originalTimes : -1 ≤ n.originalTimes
  handling : n.handling = w.supplied ↔ w.stale = false

theorem told_of_created (h : Created s address c n' w') : Told n' w' := by
  cases h with
  | intro hstart hnow hpos hint htimes =>
    rename_i block name interval times handling start now
    refine ⟨htimes, htimes, ?_⟩
    change (⟨handling.handler, block.handling.wparam, block.handling.lparam⟩ : Handling) =
      handling ↔ decide _ = false
    rw [decide_eq_false_iff_not, not_or, not_not, not_not]
    constructor
    · intro heq
      rw [← heq]
      exact ⟨rfl, rfl⟩
    · rintro ⟨hw, hl⟩
      rw [hw, hl]

theorem setStatus_handling (n : TimerNode) (status : TimerStatus) (now : UInt32) :
    (n.setStatus status now).handling = n.handling ∧ (n.setStatus status now).times = n.times ∧
      (n.setStatus status now).originalTimes = n.originalTimes := by
  unfold TimerNode.setStatus
  split <;> exact ⟨rfl, rfl, rfl⟩

theorem setStatus_supplied (w : Watch) (status : TimerStatus) (now : Nat) :
    (w.setStatus status now).supplied = w.supplied ∧ (w.setStatus status now).stale = w.stale := by
  unfold Watch.setStatus
  split <;> exact ⟨rfl, rfl⟩

theorem Told.change (h : Told n (s.watch address)) (hchange : Change s address n c n' w') :
    Told n' w' := by
  cases hchange with
  | same => exact h
  | supplied => exact ⟨h.times, h.originalTimes, iff_of_true rfl rfl⟩
  | reset => exact ⟨h.originalTimes, h.originalTimes, h.handling⟩
  | setInterval hnow hpos hint htimes => exact ⟨htimes, htimes, h.handling⟩
  | setStatus hstatus hnow =>
    rename_i code status now
    obtain ⟨hhandling, htimes, horiginal⟩ := setStatus_handling n status (tick now)
    obtain ⟨hsupplied, hstale⟩ := setStatus_supplied (s.watch address) status now
    constructor
    · rw [htimes]
      exact h.times
    · rw [horiginal]
      exact h.originalTimes
    · rw [hhandling, hsupplied, hstale]
      exact h.handling
  | fired hlook hnow hends hfires hleft =>
    obtain ⟨-, -, -, -, hnext⟩ := onTick_of_some hfires
    obtain ⟨times, htimes, heq⟩ := hnext hleft
    rw [heq]
    exact ⟨htimes, h.originalTimes, h.handling⟩

structure System.Told (s : System) : Prop where
  distinct : s.Distinct
  timers : ∀ a n, (a, n) ∈ s.des.timers → Timer.Told n (s.watch a)

theorem System.Told.asSupplied_iff (h : s.Told) (hs : step s c = some (fs, s')) :
    (∀ f ∈ fs, f.AsSupplied) ↔ Initialised s c := by
  rcases step_firings hs with ⟨nows, rfl, rfl, -, -⟩ | ⟨hother, rfl⟩
  · constructor
    · rintro hall ⟨now, a, n⟩ hv hstale ⟨hstatus, htimes, hexpired⟩
      have htold := h.timers a n (of_mem_zip hv).2
      have hfires := onTick_fires hstatus htimes htold.times (of_decide_eq_true hexpired)
      have hsupplied := hall ⟨a, now, n.handling, s.watch a⟩ (mem_firings.2 ⟨n, hv, hfires, rfl⟩)
      have hfresh := htold.handling.1 hsupplied
      rw [hstale] at hfresh
      cases hfresh
    · intro hinitialised f hf
      obtain ⟨n, hv, hfires, hwatch⟩ := mem_firings.1 hf
      obtain ⟨hstatus, htimes, hexpired, hhandling, -⟩ := onTick_of_some hfires
      have htold := h.timers f.address n (of_mem_zip hv).2
      rw [Firing.AsSupplied, hwatch, hhandling, htold.handling]
      rw [← Bool.not_eq_true]
      intro hstale
      exact hinitialised _ hv hstale ⟨hstatus, htimes, decide_eq_true hexpired⟩
  · refine iff_of_true (by simp) ?_
    cases c with
    | pass nows => exact absurd rfl (hother nows)
    | _ => trivial

theorem System.Told.step (h : s.Told) (hs : step s c = some (fs, s')) : s'.Told := by
  obtain ⟨hdistinct, -, -, htimers⟩ := step_changes h.distinct hs
  refine ⟨hdistinct, ?_⟩
  intro a n' hn'
  rcases htimers a n' hn' with hcreated | ⟨n, hn, hchange⟩
  · exact told_of_created hcreated
  · exact (h.timers a n hn).change hchange

/-- As long as no timer with parameters left over in its block becomes due, every handler is
called as it was asked for last; and the next step calls them so exactly when that holds of it. -/
theorem run_asSupplied {time : Nat} {watch : Nat → Watch} {history : List (Call × List Firing)}
    (hrun : Run step Initialised (.start time watch) history s) :
    (∀ entry ∈ history, ∀ f ∈ entry.2, f.AsSupplied) ∧
      ∀ c fs s', step s c = some (fs, s') → ((∀ f ∈ fs, f.AsSupplied) ↔ Initialised s c) := by
  refine hrun.answers_iff System.Told ⟨by exact nodup_nil, ?_⟩ ?_ System.Told.asSupplied_iff
  · intro a n hn
    cases hn
  · intro s c fs s' h hguard hs
    exact h.step hs

/-- The parameters 7 and 9 are set before the timer is due. -/
theorem run_asSupplied_set : ∃ (history : List (Call × List Firing)) (s : System),
    exec step Initialised (.start 0 noWatch)
      [.create 8 zeroBlock (some .empty) 50 (-1) ⟨4, 7, 9⟩ 0 0, .pass [10],
       .setOntimehandler 8 ⟨4, 7, 9⟩, .pass [60]] = some (history, s) ∧
    (history.flatMap Prod.snd).map (·.handling) = [⟨4, 7, 9⟩] ∧
    ∀ entry ∈ history, ∀ f ∈ entry.2, f.AsSupplied := by
  refine exists_exec (fun history _ => (history.flatMap Prod.snd).map (·.handling) = [⟨4, 7, 9⟩])
    (by decide +kernel) ?_
  intro history s he hfired
  exact ⟨hfired, (run_asSupplied (.of_exec he)).1⟩

/-- Created with the parameters 7 and 9 in a block full of zeros, the timer calls its handler
with 0 and 0. -/
theorem parameters_are_not_stored : ∃ (history : List (Call × List Firing)) (s : System),
    exec step (fun _ _ => True) (.start 0 noWatch)
      [.create 8 zeroBlock (some .empty) 50 (-1) ⟨4, 7, 9⟩ 0 0, .pass [60]] = some (history, s) ∧
    ∃ f ∈ history.flatMap Prod.snd, f.watch.supplied = ⟨4, 7, 9⟩ ∧ f.handling = ⟨4, 0, 0⟩ ∧
    ¬f.AsSupplied := by
  exact exists_of_exec _ _ _ _ _ (by decide +kernel)

end SwApi.Timer
