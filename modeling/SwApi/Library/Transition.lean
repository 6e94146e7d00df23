import Mathlib.Tactic.Common

/-! Runs of a partial step function. A step takes an action and answers; the
guard restricts which actions a run may take in which states. -/
namespace SwApi.Library

variable {σ α β : Type} {step : σ → α → Option (β × σ)} {guard : σ → α → Prop}

/-- The runs from `s₀` whose actions all meet `guard`, with their history. -/
inductive Run (step : σ → α → Option (β × σ)) (guard : σ → α → Prop) (s₀ : σ) :
    List (α × β) → σ → Prop where
  | start : Run step guard s₀ [] s₀
  | next {history s a b s'} : Run step guard s₀ history s → guard s a → step s a = some (b, s') →
      Run step guard s₀ (history ++ [(a, b)]) s'

theorem Run.invariant (inv : List (α × β) → σ → Prop) (hstart : inv [] s₀)
    (hnext : ∀ history s a b s', inv history s → guard s a → step s a = some (b, s') →
      inv (history ++ [(a, b)]) s') (h : Run step guard s₀ history s) : inv history s := by
  induction h with
  | start => exact hstart
  | next _ hg hs ih => exact hnext _ _ _ _ _ ih hg hs

/-- When the guard says of every step whether its answer is good, the answers of a run are. -/
theorem Run.answers_iff {good : β → Prop} (inv : σ → Prop)
    (hstart : inv s₀) (hnext : ∀ {s a b s'}, inv s → guard s a → step s a = some (b, s') → inv s')
    (hiff : ∀ {s a b s'}, inv s → step s a = some (b, s') → (good b ↔ guard s a))
    (h : Run step guard s₀ history s) :
    (∀ entry ∈ history, good entry.2) ∧ ∀ a b s', step s a = some (b, s') →
    (good b ↔ guard s a) := by
  have hinv : (∀ entry ∈ history, good entry.2) ∧ inv s := by
    refine Run.invariant (fun history s => (∀ entry ∈ history, good entry.2) ∧ inv s)
      ⟨by simp, hstart⟩ ?_ h
    rintro history s a b s' ⟨hbefore, hinv⟩ hg hs
    refine ⟨?_, hnext hinv hg hs⟩
    exact List.forall_mem_append.2 ⟨hbefore, List.forall_mem_singleton.2 ((hiff hinv hs).2 hg)⟩
  exact ⟨hinv.1, fun a b s' hs => hiff hinv.2 hs⟩

/-- Whether a computation has an outcome of some kind is decided by running it. -/
instance decidableOutcome {x : Option α} {p : α → Prop} [∀ a, Decidable (p a)] :
    Decidable (∃ a, x = some a ∧ p a) :=
  inferInstanceAs (Decidable (∃ a ∈ x, p a))

instance decidableOutcomePair {x : Option (α × β)} {p : α → β → Prop} [∀ a b, Decidable (p a b)] :
    Decidable (∃ a b, x = some (a, b) ∧ p a b) :=
  decidable_of_iff (∃ r, x = some r ∧ p r.1 r.2) Prod.exists

instance decidableOutcomeOf [DecidableEq α] {x : Option (α × β)} {a : α} {p : β → Prop}
    [∀ b, Decidable (p b)] : Decidable (∃ b, x = some (a, b) ∧ p b) :=
  decidable_of_iff (∃ r, x = some r ∧ r.1 = a ∧ p r.2) (by
    constructor
    · rintro ⟨⟨_, b⟩, h, rfl, hp⟩
      exact ⟨b, h, hp⟩
    · rintro ⟨b, h, hp⟩
      exact ⟨_, h, rfl, hp⟩)

/-- Executes a list of actions; `none` when a guard fails or a step has no result. -/
def exec (step : σ → α → Option (β × σ)) (guard : σ → α → Prop) [∀ s a, Decidable (guard s a)] :
    σ → List α → Option (List (α × β) × σ)
  | s, [] => some ([], s)
  | s, a :: rest =>
      if guard s a then do
        let (b, s') ← step s a
        let (history, s'') ← exec step guard s' rest
        some ((a, b) :: history, s'')
      else none

section
variable [∀ s a, Decidable (guard s a)]

theorem Run.append_exec (h : Run step guard s₀ before s)
    (he : exec step guard s actions = some (history, s')) :
    Run step guard s₀ (before ++ history) s' := by
  induction actions generalizing before s history with
  | nil =>
    cases he
    simpa using h
  | cons a rest ih =>
    rw [exec] at he
    split at he
    · rename_i hg
      obtain ⟨⟨b, s₁⟩, hs, he⟩ := Option.bind_eq_some_iff.1 he
      obtain ⟨⟨tail, s₂⟩, ht, he⟩ := Option.bind_eq_some_iff.1 he
      cases he
      simpa using ih (.next h hg hs) ht
    · cases he

theorem Run.of_exec (he : exec step guard s₀ actions = some (history, s)) :
    Run step guard s₀ history s :=
  Run.append_exec .start he

section
variable {s₀ : σ} {actions : List α} (test : List (α × β) → σ → Prop)
    [∀ history s, Decidable (test history s)]
  (h : ((exec step guard s₀ actions).any fun r => decide (test r.1 r.2)) = true)
    {Q : List (α × β) → σ → Prop}
include h

variable (step guard s₀ actions) in
/-- An execution, with what is found to be the case behind it. -/
theorem exists_of_exec : ∃ history s, exec step guard s₀ actions = some (history, s) ∧
    test history s := by
  obtain ⟨⟨history, s⟩, he, htest⟩ := (Option.any_eq_true ..).1 h
  exact ⟨history, s, he, of_decide_eq_true htest⟩

theorem exists_exec (hQ : ∀ {history s}, exec step guard s₀ actions = some (history, s) →
    test history s →
      Q history s) : ∃ history s, exec step guard s₀ actions = some (history, s) ∧ Q history s := by
  obtain ⟨history, s, he, htest⟩ := exists_of_exec step guard s₀ actions test h
  exact ⟨history, s, he, hQ he htest⟩

theorem exists_exec_and {C : Prop} (hC : C)
    (hQ : ∀ {history s}, C → exec step guard s₀ actions = some (history, s) → test history s →
      Q history s) : ∃ history s, C ∧ exec step guard s₀ actions = some (history, s) ∧
      Q history s := by
  obtain ⟨history, s, he, hfacts⟩ := exists_exec test h (hQ hC)
  exact ⟨history, s, hC, he, hfacts⟩

variable (actions) in
theorem exists_run (hQ : ∀ {history s}, Run step guard s₀ history s → test history s →
    Q history s) : ∃ history s, Run step guard s₀ history s ∧ Q history s := by
  obtain ⟨history, s, he, htest⟩ := exists_of_exec step guard s₀ actions test h
  exact ⟨history, s, .of_exec he, hQ (.of_exec he) htest⟩

end

/-- The same behind something that is made first. -/
theorem exists_exec_from {ι : Type} {make : Option ι} {start : ι → σ}
    {Q : ι → List (α × β) → σ → Prop} (test : ι → List (α × β) → σ → Prop)
    [∀ x history s, Decidable (test x history s)]
    (h : (make.any fun x => (exec step guard (start x) actions).any fun r =>
    decide (test x r.1 r.2)) = true)
    (hQ : ∀ {x history s}, make = some x → exec step guard (start x) actions = some (history, s) →
      test x history s → Q x history s) :
    ∃ x history s, make = some x ∧ exec step guard (start x) actions = some (history, s) ∧
    Q x history s := by
  obtain ⟨x, hx, h⟩ := (Option.any_eq_true ..).1 h
  obtain ⟨history, s, he, htest⟩ := exists_of_exec step guard (start x) actions (test x) h
  exact ⟨x, history, s, hx, he, hQ hx he htest⟩

end

section
variable {guard' : σ → α → Prop}

theorem Run.unique (h : Run step guard s₀ history s) (h' : Run step guard' s₀ history s') :
    s = s' := by
  induction h generalizing s' with
  | start =>
    generalize hnil : ([] : List (α × β)) = history at h'
    cases h' with
    | start => rfl
    | next _ _ _ => exact absurd hnil.symm (by simp)
  | @next before s a b _ _ _ hs ih =>
    generalize hsnoc : before ++ [(a, b)] = history at h'
    cases h' with
    | start => exact absurd hsnoc (by simp)
    | next hrun _ hs' =>
      obtain ⟨rfl, hlast⟩ := List.append_inj' hsnoc rfl
      cases hlast
      cases ih hrun
      cases hs.symm.trans hs'
      rfl

end

theorem Run.trans (h : Run step guard s₀ before s₁)
    (h' : Run step guard s₁ history s) : Run step guard s₀ (before ++ history) s := by
  induction h' with
  | start => simpa using h
  | next _ hg hs ih =>
    rw [← List.append_assoc]
    exact .next ih hg hs

theorem Run.reguard {guard' : σ → α → Prop} (inv : σ → Prop) (hstart : inv s₀)
    (hnext : ∀ s a b s', inv s → guard s a → step s a = some (b, s') → inv s')
    (hguard : ∀ s a, inv s → guard s a → guard' s a)
    (h : Run step guard s₀ history s) : Run step guard' s₀ history s ∧ inv s := by
  induction h with
  | start => exact ⟨.start, hstart⟩
  | next _ hg hs ih => exact ⟨.next ih.1 (hguard _ _ ih.2 hg) hs, hnext _ _ _ _ ih.2 hg hs⟩

theorem Run.mono {guard' : σ → α → Prop} (hguard : ∀ s a, guard s a → guard' s a)
    (h : Run step guard s₀ history s) : Run step guard' s₀ history s := by
  induction h with
  | start => exact .start
  | next _ hg hs ih => exact .next ih (hguard _ _ hg) hs

end SwApi.Library
