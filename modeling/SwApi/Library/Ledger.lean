import Mathlib.Tactic.Common

/-! Things that are acquired, used and released, in the order in which that happens. -/
namespace SwApi.Library

inductive Entry (ι : Type) where
  | acquire (i : ι)
  | use (i : ι)
  | release (i : ι)
deriving DecidableEq

def Entry.thing : Entry ι → ι
  | .acquire i => i
  | .use i => i
  | .release i => i

variable {es' : List (Entry ι)}

def Held (es : List (Entry ι)) (i : ι) : Prop := .acquire i ∈ es ∧ .release i ∉ es

/-- What may happen next: a new thing is acquired, one that is held is used or released. -/
def Legal (es : List (Entry ι)) : Entry ι → Prop
  | .acquire i => .acquire i ∉ es
  | .use i => Held es i
  | .release i => Held es i

inductive Clean : List (Entry ι) → Prop where
  | nil : Clean []
  | snoc {es : List (Entry ι)} {e : Entry ι} : Clean es → Legal es e → Clean (es ++ [e])

@[simp] theorem held_append_use : Held (es ++ [.use j]) i ↔ Held es i := by
  simp [Held]

@[simp] theorem held_append_release : Held (es ++ [.release j]) i ↔ Held es i ∧ i ≠ j := by
  simp [Held, not_or, and_assoc]

theorem Held.append_acquire (h : Held es i) (j : ι) : Held (es ++ [.acquire j]) i :=
  ⟨List.mem_append_left _ h.1, by simpa using h.2⟩

theorem mem_append_other (h : ∀ e ∈ es', e.thing ≠ i) (hthing : e.thing = i) : e ∈ es ++ es' ↔
    e ∈ es := by
  rw [List.mem_append]
  exact or_iff_left fun hmem => h e hmem hthing

theorem held_append_other (h : ∀ e ∈ es', e.thing ≠ i) : Held (es ++ es') i ↔ Held es i := by
  rw [Held, mem_append_other h rfl, mem_append_other h rfl]
  rfl

theorem Clean.legal (h : Clean (before ++ e :: after)) : Legal before e := by
  generalize hes : before ++ e :: after = es at h
  induction h generalizing after with
  | nil => simp at hes
  | snoc hclean hlegal ih =>
    rcases List.eq_nil_or_concat after with rfl | ⟨rest, last, rfl⟩
    · obtain ⟨rfl, hlast⟩ := List.append_inj' hes rfl
      cases hlast
      exact hlegal
    · rw [List.concat_eq_append, ← List.cons_append, ← List.append_assoc] at hes
      exact ih (List.append_inj' hes rfl).1

theorem Clean.acquired (h : Clean es) (hrelease : .release i ∈ es) : .acquire i ∈ es := by
  obtain ⟨before, after, rfl⟩ := List.append_of_mem hrelease
  exact List.mem_append_left _ h.legal.1

theorem Clean.held_acquire (h : Clean es) (hnew : .acquire i ∉ es) : Held (es ++ [.acquire i]) i :=
  ⟨by simp, by simpa using mt h.acquired hnew⟩

theorem Clean.count_release [DecidableEq ι] (h : Clean es) (i : ι) : es.count (.release i) ≤ 1 := by
  induction h with
  | nil => exact Nat.zero_le 1
  | @snoc es e hclean hlegal ih =>
    rw [List.count_append, List.count_singleton]
    split
    · rename_i heq
      have he : e = .release i := by simpa using heq
      subst he
      have hnone : es.count (.release i) = 0 := List.count_eq_zero.2 hlegal.2
      omega
    · exact ih

end SwApi.Library
