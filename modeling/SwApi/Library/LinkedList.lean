import Mathlib.Data.List.Basic

/-! Doubly linked lists in a memory: the links are functions of the address. A list
lies between `before` and `after`, which are NULL for a whole list. -/
namespace SwApi.Library
open List

def Linked (prev next : Nat → Nat) (before : Nat) : List Nat → Nat → Prop
  | [], _ => True
  | a :: rest, after => prev a = before ∧ next a = rest.headD after ∧ Linked prev next a rest after

section
variable {prev next : Nat → Nat} {after : Nat}

theorem linked_append : Linked prev next before (xs ++ ys) after ↔
    Linked prev next before xs (ys.headD after) ∧
    Linked prev next (xs.getLastD before) ys after := by
  induction xs generalizing before with
  | nil => simp [Linked]
  | cons a xs ih =>
    have hhead : (xs ++ ys).headD after = xs.headD (ys.headD after) := by
      cases xs <;> rfl
    have hlast : (a :: xs).getLastD before = xs.getLastD a := by
      cases xs <;> rfl
    rw [cons_append, Linked, Linked, ih, hhead, hlast]
    tauto

section
variable (h : Linked prev next before xs after)
include h

/-- Other links may be found at the ends, and new ones anywhere else. -/
theorem Linked.congr
    (hprev : ∀ a ∈ xs, xs.head? ≠ some a → prev' a = prev a)
    (hnext : ∀ a ∈ xs, xs.getLast? ≠ some a → next' a = next a)
    (hhead : ∀ a ∈ xs.head?, prev' a = before') (hlast : ∀ a ∈ xs.getLast?, next' a = after')
    (hnodup : xs.Nodup) : Linked prev' next' before' xs after' := by
  induction xs generalizing before before' with
  | nil => trivial
  | cons a xs ih =>
    obtain ⟨-, hn, hrest⟩ := h
    rw [nodup_cons] at hnodup
    refine ⟨hhead a rfl, ?_, ?_⟩
    · cases xs with
      | nil => exact hlast a rfl
      | cons b xs =>
        rw [hnext a mem_cons_self ?_, hn]
        · rfl
        · intro heq
          rw [getLast?_cons_cons] at heq
          exact hnodup.1 (mem_of_getLast? heq)
    · -- the second node becomes the first one; its link back is kept
      apply ih hrest _ _ _ _ hnodup.2
      · intro b hb _
        apply hprev b (mem_cons_of_mem _ hb)
        intro heq
        cases heq
        exact hnodup.1 hb
      · intro b hb hne
        apply hnext b (mem_cons_of_mem _ hb)
        cases xs with
        | nil => cases hb
        | cons c xs => rwa [getLast?_cons_cons]
      · intro b hb
        cases xs with
        | nil => cases hb
        | cons c xs =>
          cases hb
          rw [hprev b (mem_cons_of_mem _ mem_cons_self) ?_, hrest.1]
          intro heq
          cases heq
          exact hnodup.1 mem_cons_self
      · intro b hb
        apply hlast b
        cases xs with
        | nil => cases hb
        | cons c xs => rwa [getLast?_cons_cons]

theorem Linked.prev_head (ha : a ∈ xs.head?) : prev a = before := by
  cases xs with
  | nil => cases ha
  | cons b xs =>
    cases ha
    exact h.1

theorem Linked.next_getLast (ha : a ∈ xs.getLast?) : next a = after := by
  induction xs generalizing before with
  | nil => cases ha
  | cons b xs ih =>
    cases xs with
    | nil =>
      cases ha
      exact h.2.1
    | cons c xs =>
      rw [getLast?_cons_cons] at ha
      exact ih h.2.2 ha

end

section
variable {prev' next' : Nat → Nat} (hnodup : (xs ++ x :: ys).Nodup)
  (hprev : ∀ a, a ≠ x → ys.head? ≠ some a → prev' a = prev a)
  (hnext : ∀ a, a ≠ x → xs.getLast? ≠ some a → next' a = next a)
include hnodup hprev hnext

/-- Two parts of a list get other links where they meet; `x` is a node between them. -/
theorem Linked.relink (hleft : Linked prev next before xs ahead)
    (hright : Linked prev next behind ys after)
    (hhead : ∀ a ∈ ys.head?, prev' a = behind') (hlast : ∀ a ∈ xs.getLast?, next' a = ahead') :
    Linked prev' next' before xs ahead' ∧ Linked prev' next' behind' ys after := by
  rw [nodup_append, nodup_cons] at hnodup
  obtain ⟨hxs, ⟨hxys, hys⟩, hdisjoint⟩ := hnodup
  have hfresh : ∀ a ∈ xs, a ≠ x := fun a ha => hdisjoint a ha x mem_cons_self
  have hapart : ∀ a ∈ xs, a ∉ ys := fun a ha hmem =>
    hdisjoint a ha a (mem_cons_of_mem _ hmem) rfl
  have hprevLeft : ∀ a ∈ xs, prev' a = prev a := fun a ha =>
    hprev a (hfresh a ha) fun heq => hapart a ha (mem_of_mem_head? heq)
  have hnextRight : ∀ a ∈ ys, next' a = next a := fun a ha =>
    hnext a (fun heq => hxys (heq ▸ ha)) fun heq => hapart a (mem_of_getLast? heq) ha
  constructor
  · refine hleft.congr (fun a ha _ => hprevLeft a ha) (fun a ha hne => hnext a (hfresh a ha) hne)
      ?_ hlast hxs
    intro a ha
    rw [hprevLeft a (mem_of_mem_head? ha), hleft.prev_head ha]
  · refine hright.congr (fun a ha hne => hprev a (fun heq => hxys (heq ▸ ha)) hne)
      (fun a ha _ => hnextRight a ha) hhead ?_ hys
    intro a ha
    rw [hnextRight a (mem_of_getLast? ha), hright.next_getLast ha]

theorem Linked.insert (h : Linked prev next before (xs ++ ys) after)
    (hx : prev' x = xs.getLastD before ∧ next' x = ys.headD after)
    (hhead : ∀ a ∈ ys.head?, prev' a = x) (hlast : ∀ a ∈ xs.getLast?, next' a = x) :
    Linked prev' next' before (xs ++ x :: ys) after := by
  rw [linked_append] at h ⊢
  obtain ⟨hleft, hright⟩ := h.1.relink hnodup hprev hnext h.2 hhead hlast
  exact ⟨hleft, hx.1, hx.2, hright⟩

theorem Linked.remove (h : Linked prev next before (xs ++ x :: ys) after)
    (hhead : ∀ a ∈ ys.head?, prev' a = xs.getLastD before)
    (hlast : ∀ a ∈ xs.getLast?, next' a = ys.headD after) :
    Linked prev' next' before (xs ++ ys) after := by
  rw [linked_append] at h ⊢
  exact h.1.relink hnodup hprev hnext h.2.2.2 hhead hlast

end

theorem Linked.at (h : Linked prev next before (xs ++ x :: ys) after) :
    prev x = xs.getLastD before ∧ next x = ys.headD after := by
  rw [linked_append] at h
  exact ⟨h.2.1, h.2.2.1⟩

end

end SwApi.Library
