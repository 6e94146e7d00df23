import Mathlib.Data.Nat.Find
import Mathlib.Data.Nat.ModEq

/-! Linear probing as a walk around a cycle of slots; what the loop does with one slot is a
parameter. -/
namespace SwApi.Library.CyclicProbe

/-- The slot reached after `d` steps from `start` on a cycle of `n` slots. -/
def pos (n start d : Nat) : Nat := (start + d) % n

/-- `none` leaves the program (the slot does not exist), `some none` goes on
with the next slot, `some (some b)` ends the loop with `b`. -/
abbrev Visit (β : Type) := Nat → Option (Option β)

def loop (n fstpos : Nat) (visit : Visit β) : Nat → Nat → Option (Option β)
  | 0, _ => some none
  | fuel+1, curr =>
      match visit curr with
      | none => none
      | some (some b) => some (some b)
      | some none =>
          if (curr + 1) % n ≠ fstpos then loop n fstpos visit fuel ((curr + 1) % n)
          else some none

/-- One full turn visits `n` slots, so `n` rounds of fuel are never used up. -/
def probe (n start : Nat) (visit : Visit β) : Option (Option β) :=
  loop n start visit n start

theorem pos_lt (hn : 0 < n) (start d : Nat) : pos n start d < n := Nat.mod_lt _ hn

@[simp] theorem pos_zero (hs : start < n) : pos n start 0 = start := by
  simp [pos, Nat.mod_eq_of_lt hs]

theorem pos_succ (n start d : Nat) : (pos n start d + 1) % n = pos n start (d + 1) := by
  simp [pos, Nat.mod_add_mod, Nat.add_assoc]

theorem pos_pos (n start d e : Nat) : pos n (pos n start d) e = pos n start (d + e) := by
  simp [pos, Nat.mod_add_mod, Nat.add_assoc]

theorem pos_inj (hd : d < n) (he : e < n) (h : pos n start d = pos n start e) : d = e := by
  have hmod : start + d ≡ start + e [MOD n] := h
  have hde : d ≡ e [MOD n] := Nat.ModEq.add_left_cancel' start hmod
  rwa [Nat.ModEq, Nat.mod_eq_of_lt hd, Nat.mod_eq_of_lt he] at hde

theorem pos_eq_start_iff (hs : start < n) (hd : d < n) : pos n start (d + 1) = start ↔
    d + 1 = n := by
  constructor
  · intro h
    by_contra hne
    have hlt : d + 1 < n := by omega
    have h0 : pos n start (d + 1) = pos n start 0 := by rw [h, pos_zero hs]
    have := pos_inj hlt (by omega) h0
    omega
  · rintro rfl
    simp [pos, Nat.mod_eq_of_lt hs]

def dist (n start i : Nat) : Nat := (i + n - start) % n

theorem dist_lt (hn : 0 < n) (start i : Nat) : dist n start i < n := Nat.mod_lt _ hn

theorem pos_dist (hs : start < n) (hi : i < n) : pos n start (dist n start i) = i := by
  unfold pos dist
  rw [Nat.add_mod_mod, show start + (i + n - start) = i + n by omega, Nat.add_mod_right,
    Nat.mod_eq_of_lt hi]

/-- The walk without the test against `fstpos`, over the distances still ahead. -/
private def ahead (n start : Nat) (visit : Visit β) : Nat → Nat → Option (Option β)
  | 0, _ => some none
  | left+1, d =>
      match visit (pos n start d) with
      | none => none
      | some (some b) => some (some b)
      | some none => ahead n start visit left (d + 1)

private theorem loop_eq_ahead (hs : start < n) (visit : Visit β) (left d : Nat)
    (hd : d + (left + 1) = n) :
    loop n start visit (left + 1) (pos n start d) = ahead n start visit (left + 1) d := by
  induction left generalizing d with
  | zero =>
    have hback : pos n start (d + 1) = start := (pos_eq_start_iff hs (by omega)).2 (by omega)
    simp [loop, ahead]
  | succ left ih =>
    have hgo : pos n start (d + 1) ≠ start := fun h =>
      absurd ((pos_eq_start_iff hs (by omega)).1 h) (by omega)
    rw [loop, ahead]
    simp only [pos_succ, ne_eq, hgo, not_false_eq_true, if_true, ih (d + 1) (by omega)]

private theorem probe_eq_ahead (hs : start < n) (visit : Visit β) :
    probe n start visit = ahead n start visit n 0 := by
  obtain ⟨m, rfl⟩ : ∃ m, n = m + 1 := ⟨n - 1, by omega⟩
  have h := loop_eq_ahead hs visit m 0 (by omega)
  rwa [pos_zero hs] at h

private theorem ahead_eq_stop (visit : Visit β) (b : β) (left d : Nat) :
    ahead n start visit left d = some (some b) ↔
      ∃ e, d ≤ e ∧ e < d + left ∧ visit (pos n start e) = some (some b) ∧
        ∀ f, d ≤ f → f < e → visit (pos n start f) = some none := by
  induction left generalizing d with
  | zero =>
    simp only [ahead, Option.some.injEq, reduceCtorEq, false_iff]
    rintro ⟨e, h1, h2, -⟩
    omega
  | succ left ih =>
    rw [ahead]
    constructor
    · intro h
      cases hv : visit (pos n start d) with
      | none => simp [hv] at h
      | some r =>
        cases r with
        | some c =>
          simp only [hv] at h
          exact ⟨d, by omega, by omega, by rw [hv, h], fun f h1 h2 => by omega⟩
        | none =>
          simp only [hv] at h
          obtain ⟨e, h1, h2, h3, h4⟩ := (ih (d + 1)).1 h
          refine ⟨e, by omega, by omega, h3, fun f hf1 hf2 => ?_⟩
          rcases Nat.eq_or_lt_of_le hf1 with rfl | hlt
          · exact hv
          · exact h4 f hlt hf2
    · rintro ⟨e, h1, h2, h3, h4⟩
      rcases Nat.eq_or_lt_of_le h1 with rfl | hlt
      · simp [h3]
      · simp only [h4 d (by omega) hlt]
        exact (ih (d + 1)).2 ⟨e, hlt, by omega, h3, fun f hf1 hf2 => h4 f (by omega) hf2⟩

private theorem ahead_eq_next (visit : Visit β) (left d : Nat) :
    ahead n start visit left d = some none ↔
      ∀ e, d ≤ e → e < d + left → visit (pos n start e) = some none := by
  induction left generalizing d with
  | zero => simp only [ahead, true_iff]; intro e h1 h2; omega
  | succ left ih =>
    rw [ahead]
    constructor
    · intro h e h1 h2
      cases hv : visit (pos n start d) with
      | none => simp [hv] at h
      | some r =>
        cases r with
        | some c => simp [hv] at h
        | none =>
          simp only [hv] at h
          rcases Nat.eq_or_lt_of_le h1 with rfl | hlt
          · exact hv
          · exact (ih (d + 1)).1 h e hlt (by omega)
    · intro h
      simp only [h d (by omega) (by omega)]
      exact (ih (d + 1)).2 fun e h1 h2 => h e (by omega) (by omega)

/-- The loop stops with `b` exactly at the first slot whose visit says so. -/
theorem probe_eq_stop (hs : start < n) (visit : Visit β) (b : β) :
    probe n start visit = some (some b) ↔
      ∃ d < n, visit (pos n start d) = some (some b) ∧
      ∀ e < d, visit (pos n start e) = some none := by
  rw [probe_eq_ahead hs, ahead_eq_stop]
  constructor
  · rintro ⟨e, -, h2, h3, h4⟩
    exact ⟨e, by omega, h3, fun f hf => h4 f (by omega) hf⟩
  · rintro ⟨e, h2, h3, h4⟩
    exact ⟨e, by omega, by omega, h3, fun f _ hf => h4 f hf⟩

theorem probe_eq_next (hs : start < n) (visit : Visit β) :
    probe n start visit = some none ↔ ∀ d < n, visit (pos n start d) = some none := by
  rw [probe_eq_ahead hs, ahead_eq_next]
  exact ⟨fun h d hd => h d (by omega) (by omega), fun h d _ hd => h d (by omega)⟩

theorem probe_defined (hs : start < n) (visit : Visit β) (hv : ∀ i < n, visit i ≠ none) :
    (∃ b, probe n start visit = some (some b)) ∨ probe n start visit = some none := by
  have hn : 0 < n := by omega
  by_cases h : ∃ d, d < n ∧ visit (pos n start d) ≠ some none
  · -- the least such distance is where the loop stops
    classical
    obtain ⟨hd, hstop⟩ := Nat.find_spec h
    have hmin : ∀ e < Nat.find h, visit (pos n start e) = some none := fun e he => by
      by_contra hne
      exact Nat.find_min h he ⟨by omega, hne⟩
    cases hb : visit (pos n start (Nat.find h)) with
    | none => exact absurd hb (hv _ (pos_lt hn _ _))
    | some r =>
      cases r with
      | none => exact absurd hb hstop
      | some b => exact .inl ⟨b, (probe_eq_stop hs visit b).2 ⟨_, hd, hb, hmin⟩⟩
  · refine .inr ((probe_eq_next hs visit).2 fun d hd => ?_)
    by_contra hne
    exact h ⟨d, hd, hne⟩

end SwApi.Library.CyclicProbe
