import SwApi.Library.Lists
import SwApi.Parameter.Model

/-! The order of the table: names increase strictly without regard to case, and both searches rely
on it. -/
namespace SwApi.Parameter
open Library SortedSearch Os List Function

def Table.entries (t : Table) : List Para := cells t.plist t.pnum

def Para.key (p : Para) : List Nat := (p.name.getD .empty).fold

structure WellFormed (t : Table) : Prop where
  bound : t.pnum ≤ maxParaNum
  named : ∀ p ∈ t.entries, ∃ n, p.name = some n
  owned : ∀ p ∈ t.entries, ∃ d, p.depot = some d
  increasing : (t.entries.map Para.key).Pairwise (· < ·)

@[simp] theorem Table.entries_length (t : Table) : t.entries.length = t.pnum := cells_length _ _

theorem Table.entries_getElem? (t : Table) (hi : i < t.pnum) : t.entries[i]? = some (t.plist i) :=
  cells_getElem? _ hi

theorem Table.mem_entries (t : Table) (hi : i < t.pnum) : t.plist i ∈ t.entries :=
  mem_cells.2 ⟨i, hi, rfl⟩

@[simp] theorem Table.entries_setPara (t : Table) (i : Nat) (p : Para) :
    (t.setPara i p).entries = t.entries.set i p :=
  cells_update ..

section
variable {t : Table}

theorem WellFormed.key_lt (h : WellFormed t) (hij : i < j) (hj : j < t.pnum) :
    (t.plist i).key < (t.plist j).key := by
  have hlt := pairwise_iff_getElem.1 h.increasing i j (by simp; omega) (by simpa using hj) hij
  simpa [Table.entries] using hlt

theorem WellFormed.eq_of_key (h : WellFormed t) (hi : i < t.pnum) (hj : j < t.pnum)
    (hkey : (t.plist i).key = (t.plist j).key) : i = j := by
  rcases lt_trichotomy i j with hlt | heq | hlt
  · exact absurd hkey (h.key_lt hlt hj).ne
  · exact heq
  · exact absurd hkey.symm (h.key_lt hlt hi).ne

def Table.sign (t : Table) (name : CString) (k : Nat) : Int :=
  CString.strcasecmp name ((t.plist k).name.getD .empty)

theorem WellFormed.compare_eq (h : WellFormed t) (name : CString) (hi : i < t.pnum) :
    t.compare name i = some (t.sign name i) := by
  obtain ⟨n, hn⟩ := h.named _ (t.mem_entries hi)
  rw [Table.compare, Table.sign, hn]
  rfl

theorem WellFormed.descends (h : WellFormed t) (name : CString) (hn : n ≤ t.pnum) :
    Descends (t.sign name) n := by
  intro i j hij hj hge
  have hlt := h.key_lt hij (by omega)
  have hle : ¬name.fold < (t.plist j).key := mt CString.strcasecmp_neg_iff.2 (by
    rw [Table.sign] at hge
    omega)
  exact CString.strcasecmp_pos_iff.2 (lt_of_lt_of_le hlt (not_lt.1 hle))

theorem sign_eq_zero_iff : t.sign name i = 0 ↔ (t.plist i).key = name.fold := by
  rw [Table.sign, CString.strcasecmp_eq_zero_iff, eq_comm]
  rfl

theorem WellFormed.find (h : WellFormed t) (name : CString) :
    (∃ i, swParameterFind t name = some (some i) ∧ i < t.pnum ∧ (t.plist i).key = name.fold) ∨
    (swParameterFind t name = some none ∧ ∀ p ∈ t.entries, p.key ≠ name.fold) := by
  unfold swParameterFind
  by_cases hzero : t.pnum = 0
  · right
    simp [hzero, Table.entries, cells]
  · rw [if_neg hzero]
    have hspec := bsearch_spec (fun k hk => h.compare_eq name hk) (h.descends name le_rfl)
      (Nat.pos_of_ne_zero hzero)
    rcases hspec with ⟨m, hm, hlt, heq⟩ | ⟨m, hm, -, hne⟩
    · left
      exact ⟨m, by rw [hm]; rfl, hlt, sign_eq_zero_iff.1 heq⟩
    · right
      refine ⟨by rw [hm]; rfl, ?_⟩
      intro p hp
      obtain ⟨k, hk, rfl⟩ := mem_cells.1 hp
      exact mt sign_eq_zero_iff.2 (hne k hk)

theorem WellFormed.find_mem (h : WellFormed t) (hp : p ∈ t.entries) (hkey : p.key = name.fold) :
    ∃ i, swParameterFind t name = some (some i) ∧ i < t.pnum ∧ t.plist i = p := by
  rcases h.find name with ⟨i, hfind, hi, hkeyi⟩ | ⟨-, hmissing⟩
  · obtain ⟨j, hj, rfl⟩ := mem_cells.1 hp
    exact ⟨i, hfind, hi, by rw [h.eq_of_key hi hj (hkeyi.trans hkey.symm)]⟩
  · exact absurd hkey (hmissing p hp)

def Table.filled (t : Table) (p : Para) : Table :=
  { t with plist := update t.plist t.pnum p, pnum := t.pnum + 1 }

theorem filled_plist (hi : i < t.pnum) : (t.filled p).plist i = t.plist i := by
  exact update_of_ne (by omega) _ _

theorem entries_insertAt (t : Table) (p : Para) (hi : i ≤ t.pnum) :
    ((t.filled p).insertAt i p).entries = t.entries.take i ++ p :: t.entries.drop i := by
  have hsame : cells (t.filled p).plist t.pnum = t.entries :=
    cells_congr fun k hk => filled_plist hk
  rw [← hsame]
  exact cells_insert _ hi p

theorem insertAt_last : (t.filled p).insertAt t.pnum p = t.filled p := by
  have hplist : update (t.filled p).plist t.pnum p = (t.filled p).plist :=
    update_idem ..
  have hzero : (t.filled p).pnum - 1 - t.pnum = 0 := by simp [Table.filled]
  rw [Table.insertAt, hzero, memmove_zero, hplist]

theorem WellFormed.append_eq (h : WellFormed t) (hp : p.name = some name)
    (hnew : ∀ q ∈ t.entries, q.key ≠ name.fold) :
    ∃ k, IsPlace (t.sign name) t.pnum k ∧ t.append p = some ((t.filled p).insertAt k p) := by
  by_cases hzero : t.pnum = 0
  · refine ⟨t.pnum, ⟨le_rfl, by omega, by omega⟩, ?_⟩
    rw [insertAt_last]
    exact if_pos (show t.pnum + 1 ≤ 1 by omega)
  have hc : ∀ k, k < t.pnum → (t.filled p).compare name k = some (t.sign name k) := by
    intro k hk
    rw [Table.compare, filled_plist hk]
    exact h.compare_eq name hk
  have hs := h.descends name le_rfl
  have hne : ∀ k, k < t.pnum → t.sign name k ≠ 0 := by
    intro k hk
    exact mt sign_eq_zero_iff.1 (hnew _ (t.mem_entries hk))
  have htmp : (t.filled p).plist t.pnum = p := update_self ..
  obtain ⟨m, hsearch, hm, -⟩ : ∃ m, bsearch ((t.filled p).compare name) t.pnum =
      some (.missing m (t.sign name m)) ∧ m < t.pnum ∧ _ := by
    rcases bsearch_spec hc hs (Nat.pos_of_ne_zero hzero) with ⟨m, -, hm, heq⟩ | hmissing
    · exact absurd heq (hne m hm)
    · exact hmissing
  have hunfold : t.append p =
      if 0 < t.sign name m then (scanUp ((t.filled p).compare name) (t.pnum - m) m).map fun k =>
        if k < t.pnum then (t.filled p).insertAt k p else t.filled p
      else (scanDown ((t.filled p).compare name) m).map fun k => (t.filled p).insertAt k p := by
    have hmax : (t.filled p).pnum - 1 = t.pnum := rfl
    have hmany : ¬(t.filled p).pnum ≤ 1 := show ¬t.pnum + 1 ≤ 1 by omega
    change insertQsort (t.filled p) = _
    simp only [insertQsort, if_neg hmany, hmax, htmp, hp, Option.bind_eq_bind, Option.bind_some,
      hsearch, Option.map_eq_bind]
    rfl
  rw [hunfold]
  by_cases hpos : 0 < t.sign name m
  · obtain ⟨k, hk, hplace⟩ := scanUp_spec hc hs hne (t.pnum - m) m (by omega)
      (fun k hk => hs k m hk hm hpos.le)
    refine ⟨k, hplace, ?_⟩
    rw [if_pos hpos, hk]
    by_cases hlast : k < t.pnum
    · simp [hlast]
    · have hkn : k = t.pnum := by
        have := hplace.le
        omega
      simp [hkn, insertAt_last]
  · have hbehind : ∀ k, m < k → k < t.pnum → t.sign name k < 0 := by
      intro k hmk hk
      by_contra hnn
      exact hpos (hs m k hmk hk (by omega))
    obtain ⟨k, hk, hplace⟩ := scanDown_spec hc hs hne m hm hbehind
    refine ⟨k, hplace, ?_⟩
    rw [if_neg hpos, hk]
    rfl

theorem mem_insert_iff {ps : List Para} (k : Nat) : q ∈ ps.take k ++ p :: ps.drop k ↔ q = p ∨
    q ∈ ps := by
  rw [mem_append, mem_cons]
  nth_rewrite 3 [← take_append_drop k ps]
  rw [mem_append]
  tauto

theorem WellFormed.append (h : WellFormed t) {p : Para} (hp : p.name = some name)
    (hd : ∃ d, p.depot = some d) (hnew : ∀ q ∈ t.entries, q.key ≠ name.fold)
    (hroom : t.pnum < maxParaNum) : ∃ k t', t.append p = some t' ∧ WellFormed t' ∧ k ≤ t.pnum ∧
      t'.entries = t.entries.take k ++ p :: t.entries.drop k ∧
      t'.depots = t.depots ∧ t'.defdepot = t.defdepot := by
  obtain ⟨k, hplace, happend⟩ := h.append_eq hp hnew
  have hentries := entries_insertAt t p hplace.le
  refine ⟨k, _, happend, ⟨hroom, ?_, ?_, ?_⟩, hplace.le, hentries, rfl, rfl⟩
  · simp only [hentries, mem_insert_iff, forall_eq_or_imp]
    exact ⟨⟨name, hp⟩, h.named⟩
  · simp only [hentries, mem_insert_iff, forall_eq_or_imp]
    exact ⟨hd, h.owned⟩
  · have hkey : p.key = name.fold := by rw [Para.key, hp]; rfl
    rw [hentries, map_append, map_cons, pairwise_append, pairwise_cons, hkey]
    have hsplit := h.increasing
    rw [← take_append_drop k t.entries, map_append, pairwise_append] at hsplit
    have hbefore : ∀ a ∈ (t.entries.take k).map Para.key, a < name.fold := by
      intro a ha
      obtain ⟨q, hq, rfl⟩ := mem_map.1 ha
      obtain ⟨i, hi, rfl⟩ := mem_take_iff_getElem.1 hq
      have := hplace.before i (by omega)
      simpa [Table.entries, Para.key] using CString.strcasecmp_pos_iff.1 this
    have hbehind : ∀ a ∈ (t.entries.drop k).map Para.key, name.fold < a := by
      intro a ha
      obtain ⟨q, hq, rfl⟩ := mem_map.1 ha
      obtain ⟨i, hi, rfl⟩ := mem_drop_iff_getElem.1 hq
      have := hplace.behind (k + i) (by omega) (by simpa [Nat.add_comm] using hi)
      simpa [Table.entries, Para.key, Nat.add_comm] using CString.strcasecmp_neg_iff.1 this
    refine ⟨hsplit.1, ⟨hbehind, hsplit.2.1⟩, ?_⟩
    intro a ha b hb
    rcases mem_cons.1 hb with rfl | hb
    · exact hbefore a ha
    · exact hsplit.2.2 a ha b hb

theorem Table.forall_setPara {P : Para → Prop} (h : ∀ q ∈ t.entries, P q) (hp : P p) :
    ∀ q ∈ (t.setPara i p).entries, P q := by
  intro q hq
  rw [Table.entries_setPara] at hq
  rcases mem_or_eq_of_mem_set hq with hq | rfl
  · exact h q hq
  · exact hp

theorem WellFormed.setPara (h : WellFormed t) (hi : i < t.pnum)
    (hname : p.name = (t.plist i).name) (hd : ∃ d, p.depot = some d) :
    WellFormed (t.setPara i p) := by
  refine ⟨h.bound, Table.forall_setPara h.named ?_, Table.forall_setPara h.owned hd, ?_⟩
  · rw [hname]
    exact h.named _ (t.mem_entries hi)
  · have hkey : p.key = (t.plist i).key := by rw [Para.key, hname]; rfl
    rw [Table.entries_setPara, map_set, hkey,
      set_eq_self (by rw [getElem?_map, t.entries_getElem? hi]; rfl)]
    exact h.increasing

theorem WellFormed.sublist (h : WellFormed t) (hsub : t'.entries.Sublist t.entries) :
    WellFormed t' := by
  refine ⟨?_, fun p hp => h.named p (hsub.subset hp), fun p hp => h.owned p (hsub.subset hp),
    h.increasing.sublist (hsub.map _)⟩
  have hlen := hsub.length_le
  rw [Table.entries_length, Table.entries_length] at hlen
  exact hlen.trans h.bound

end

end SwApi.Parameter
