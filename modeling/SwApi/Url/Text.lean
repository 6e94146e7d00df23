import SwApi.Url.Model

/-! What the searches of the C library find, and strings in arrays. -/
namespace SwApi.Url
open Library List

def Free (s bad : Bytes) : Prop := ∀ c ∈ s, c ∉ bad

@[simp] theorem peek_cons (c : UInt8) (p : Bytes) : peek (c :: p) = c := rfl

theorem Free.not_mem (h : Free s bad) (hc : c ∈ bad) : c ∉ s := fun hs => h c hs hc

theorem Free.mono (h : Free s bad) (hsub : q ⊆ bad) : Free s q := fun c hs hc => h c hs (hsub hc)

theorem Free.append (hs : Free s bad) (hp : Free p bad) : Free (s ++ p) bad := by
  exact forall_mem_append.2 ⟨hs, hp⟩

theorem Free.cons (hc : c ∉ bad) (hs : Free s bad) : Free (c :: s) bad := by
  exact forall_mem_cons.2 ⟨hc, hs⟩

theorem Free.of_all {p : UInt8 → Bool} (h : ∀ c ∈ s, p c = true) (hbad : ∀ c ∈ bad, p c = false) :
    Free s bad :=
  fun c hs hc => Bool.noConfusion ((h c hs).symm.trans (hbad c hc))

theorem strchr_append (h : c ∉ s) (p : Bytes) : strchr c (s ++ p) = strchr c p := by
  induction s with
  | nil => rfl
  | cons d s ih =>
    have hd : d ≠ c := fun e => h (e ▸ mem_cons_self)
    rw [cons_append, strchr, if_neg hd]
    exact ih fun hc => h (mem_cons_of_mem _ hc)

theorem strchr_none (h : c ∉ s) : strchr c s = none := by
  rw [← append_nil s, strchr_append h]
  rfl

theorem strchr_cons (c : UInt8) (p : Bytes) : strchr c (c :: p) = some (c :: p) := if_pos rfl

theorem strchr_suffix (h : strchr c p = some q) : q <:+ p := by
  induction p with
  | nil => cases h
  | cons d p ih =>
    rw [strchr] at h
    split at h
    · cases h
      exact suffix_rfl
    · exact (ih h).trans (suffix_cons d p)

theorem strchr_found (c : UInt8) (w p : Bytes) :
    ∃ w', w'.length ≤ w.length ∧ strchr c (w ++ c :: p) = some (w' ++ c :: p) := by
  induction w with
  | nil => exact ⟨[], Nat.le_refl _, strchr_cons c p⟩
  | cons d w ih =>
    rw [cons_append, strchr]
    split
    · exact ⟨d :: w, Nat.le_refl _, rfl⟩
    · obtain ⟨w', hlen, hfound⟩ := ih
      exact ⟨w', Nat.le_succ_of_le hlen, hfound⟩

theorem strstr_found (h : s <+: p.drop k) : ∃ d, d ≤ k ∧ strstr s p = some d ∧ s <+: p.drop d := by
  induction p generalizing k with
  | nil =>
    rw [drop_nil] at h
    have hs := prefix_nil.1 h
    subst hs
    exact ⟨0, Nat.zero_le _, rfl, nil_prefix⟩
  | cons c p ih =>
    rw [strstr]
    split
    · rename_i hfirst
      exact ⟨0, Nat.zero_le _, rfl, hfirst⟩
    · rename_i hfirst
      cases k with
      | zero => exact absurd h hfirst
      | succ k =>
        obtain ⟨d, hle, hd, hplace⟩ := ih h
        exact ⟨d + 1, Nat.succ_le_succ hle, by rw [hd]; rfl, hplace⟩

theorem strstr_place (h : strstr s p = some d) : s <+: p.drop d := by
  induction p generalizing d with
  | nil =>
    rw [strstr] at h
    split at h
    · rename_i hs
      rw [hs]
      exact nil_prefix
    · cases h
  | cons c p ih =>
    rw [strstr] at h
    split at h
    · rename_i hfirst
      cases h
      exact hfirst
    · obtain ⟨k, hk, rfl⟩ := Option.map_eq_some_iff.1 h
      exact ih hk

theorem strstr_append (h : strstr s p = some d) (q : Bytes) : strstr s (p ++ q) = some d := by
  induction p generalizing d with
  | nil =>
    rw [strstr] at h
    split at h
    · rename_i hs
      cases h
      subst hs
      cases q with
      | nil => rfl
      | cons c q => exact if_pos nil_prefix
    · cases h
  | cons c p ih =>
    have hplace := strstr_place h
    rw [strstr] at h
    rw [cons_append, strstr]
    split at h
    · rename_i hfirst
      cases h
      exact if_pos (hfirst.trans (prefix_append (c :: p) q))
    · rename_i hfirst
      obtain ⟨k, hk, rfl⟩ := Option.map_eq_some_iff.1 h
      have hlength : s.length ≤ (c :: p).length :=
        hplace.length_le.trans (by rw [length_drop]; omega)
      have hnot : ¬s <+: c :: (p ++ q) := fun hnow =>
        hfirst (prefix_of_prefix_length_le hnow (prefix_append (c :: p) q) hlength)
      rw [if_neg hnot, ih hk]
      rfl

theorem strstr_before (hs : s ≠ []) (h : strstr s p = some d) (hq : q <+: p)
    (hlength : q.length < d + s.length) : strstr s q = none := by
  cases hfound : strstr s q with
  | none => rfl
  | some k =>
    obtain ⟨t, rfl⟩ := hq
    have hk := strstr_append hfound t
    rw [h] at hk
    cases hk
    have hle := (strstr_place hfound).length_le
    rw [length_drop] at hle
    have hpos := length_pos_iff.2 hs
    omega

def fill (n : Nat) (s : Bytes) : Bytes := s ++ replicate (n - s.length) 0

theorem fill_set (h : s.length < n) (c : UInt8) :
    (fill n s).set s.length c = fill n (s ++ [c]) := by
  obtain ⟨k, rfl⟩ := Nat.exists_eq_add_of_lt h
  have hk : s.length + k + 1 - s.length = k + 1 := by omega
  have hk' : s.length + k + 1 - (s.length + 1) = k := by omega
  rw [fill, fill, hk, length_append, length_singleton, hk', replicate_succ]
  simp

theorem fill_set_zero (h : s.length < n) : (fill n s).set s.length 0 = fill n s := by
  obtain ⟨k, rfl⟩ := Nat.exists_eq_add_of_lt h
  have hk : s.length + k + 1 - s.length = k + 1 := by omega
  rw [fill, hk, replicate_succ]
  simp

theorem cstr_append (h : 0 ∉ s) (p : Bytes) : cstr (s ++ p) = s ++ cstr p :=
  takeWhile_append_of_pos fun _ hc => bne_iff_ne.2 fun e => h (e ▸ hc)

theorem cstr_terminated (h : 0 ∉ s) (p : Bytes) : cstr (s ++ 0 :: p) = s :=
  (cstr_append h _).trans (append_nil s)

theorem cstr_fill (h : 0 ∉ s) (n : Nat) : cstr (fill n s) = s := by
  rw [fill, cstr_append h, cstr, takeWhile_replicate]
  simp

theorem cstr_printed (htake : mem.take out.length = out)
    (hzero : mem[out.length]? = some 0) (hout : 0 ∉ out) : cstr mem = out := by
  have hdrop : mem.drop out.length = 0 :: mem.drop (out.length + 1) := by
    obtain ⟨hlt, hget⟩ := List.getElem?_eq_some_iff.1 hzero
    rw [drop_eq_getElem_cons hlt, hget]
  rw [← take_append_drop out.length mem, htake, hdrop, cstr_terminated hout]

end SwApi.Url
