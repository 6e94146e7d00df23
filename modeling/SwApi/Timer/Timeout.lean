import SwApi.Timer.Model

/-! The time that `find_min_timeout` finds for the timer thread to wait. -/
namespace SwApi.Timer

/-- A node the loop looks at, with what the tick has counted when it is due and when it is looked
at. -/
structure Look where
  node : TimerNode
  due : Nat
  now : Nat
  trigger : node.triggerTime = counter due

def Look.Enabled (l : Look) : Prop := l.node.status = .enable

/-- The loop of `find_min_timeout`, from the `timeout` it starts with. -/
def findMinTimeout (timeout : UInt32) (looks : List Look) : UInt32 :=
  looks.foldl (fun min l => minTimeout min l.node (counter l.now)) timeout

theorem le_minTimeout : x ≤ minTimeout m node now ↔
    x ≤ m ∧ (node.status = .enable → x ≤ node.triggerTime - now) := by
  unfold minTimeout
  by_cases hstatus : node.status = .enable
  · simp only [hstatus, true_and, forall_const, UInt32.le_iff_toNat_le, UInt32.lt_iff_toNat_lt]
    split <;> omega
  · simp [hstatus]

theorem le_findMinTimeout : x ≤ findMinTimeout timeout looks ↔
    x ≤ timeout ∧ ∀ l ∈ looks, l.Enabled → x ≤ l.node.triggerTime - counter l.now := by
  unfold findMinTimeout
  induction looks generalizing timeout with
  | nil => simp
  | cons l looks ih => simp [ih, le_minTimeout, Look.Enabled, and_assoc]

theorem findMinTimeout_eq_zero : findMinTimeout (-1) looks = 0 ↔ ∃ l ∈ looks, l.Enabled ∧
    l.node.triggerTime = counter l.now := by
  have hone : ∀ x : UInt32, 1 ≤ x ↔ x ≠ 0 := by
    intro x
    rw [UInt32.le_iff_toNat_le, ne_eq, ← UInt32.toNat_inj]
    exact Nat.one_le_iff_ne_zero
  rw [← not_iff_not, ← ne_eq, ← hone, le_findMinTimeout]
  simp [hone, UInt32.sub_eq_iff_eq_add]

theorem Look.difference_le (l : Look) (h : l.now ≤ l.due) :
    (l.node.triggerTime - counter l.now).toNat ≤ l.due - l.now := by
  rw [l.trigger, ← counter_sub h, toNat_counter]
  exact Nat.mod_le _ _

/-- The wait is at most the time that is left to every enabled timer, and none beside an overdue
one, exactly when no enabled timer is overdue or one is due at the tick it is looked at. -/
theorem findMinTimeout_inTime_iff (looks : List Look) :
    (∀ l ∈ looks, l.Enabled → (findMinTimeout (-1) looks).toNat ≤ l.due - l.now) ↔
      (∀ l ∈ looks, l.Enabled → l.now ≤ l.due) ∨ ∃ l ∈ looks, l.Enabled ∧
      l.node.triggerTime = counter l.now := by
  rw [← findMinTimeout_eq_zero]
  constructor
  · intro h
    by_contra hnot
    push Not at hnot
    obtain ⟨⟨l, hl, henabled, hover⟩, hzero⟩ := hnot
    have hle := h l hl henabled
    exact hzero (UInt32.toNat_inj.1 (by simp; omega))
  · rintro (hdue | hzero) l hl henabled
    · have hle := (le_findMinTimeout.1 (UInt32.le_refl (findMinTimeout (-1) looks))).2 l hl henabled
      exact (UInt32.le_iff_toNat_le.1 hle).trans (l.difference_le (hdue l hl henabled))
    · simp [hzero]

/-- A timer that is overdue by 50 ms is waited for almost 50 days. -/
theorem overdue_timer_waits : ∃ l : Look, l.Enabled ∧ l.due = 100 ∧ l.now = 150 ∧
    (findMinTimeout (-1) [l]).toNat = 2 ^ 32 - 50 := by
  exact ⟨⟨{ zeroBlock with status := .enable, triggerTime := 100 }, 100, 150, rfl⟩, rfl, rfl,
    rfl, by decide⟩

end SwApi.Timer
