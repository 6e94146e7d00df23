import Mathlib.Algebra.Order.Ring.Int
import SwApi.Library.Transition
import SwApi.Library.Cells
import SwApi.Library.CString

/-! `sw_parameter_unregister_depot` moves memory by bytes, so that it is modelled on
the words of the manager: a `sw_parameter_t` as it is laid out on a 32-bit target.
The length of its `memmove` is counted in depots, not in pointers to depots. -/
namespace SwApi.Parameter
open Library List Option Function

abbrev Image := Nat → UInt32

/-- Where the fields are; before `depots` there are `buf`, `mem`, `thrd`, `signal`, `mutex`
and `timeout`, and behind `pnum` the three flags share a word. -/
def depotsAt : Nat := 6
def defdepotAt : Nat := 14
def dcountAt : Nat := 15
def observersAt : Nat := 16
def ocountAt : Nat := 24
def plistAt : Nat := 25
def pnumAt : Nat := 8217
def managerWords : Nat := 8219

def idepotWords : Nat := 22
def paraWords : Nat := 4

theorem words : depotsAt = 6 ∧ defdepotAt = 14 ∧ dcountAt = 15 ∧ observersAt = 16 ∧ ocountAt = 24 ∧
    plistAt = 25 ∧ pnumAt = 8217 ∧ managerWords = 8219 ∧ idepotWords = 22 ∧ paraWords = 4 := by
  decide

/-- `para_desc_t`; the two flags share a word. -/
structure ParaImage where
  name : UInt32
  value : UInt32
  flags : UInt32
  depot : UInt32
deriving DecidableEq

def Image.int (m : Image) (w : Nat) : Int := (m w).toBitVec.toInt

def Image.para (m : Image) (i : Nat) : ParaImage :=
  ⟨m (plistAt + paraWords * i), m (plistAt + paraWords * i + 1), m (plistAt + paraWords * i + 2),
    m (plistAt + paraWords * i + 3)⟩

def Image.depots (m : Image) : List UInt32 :=
  cells (fun i => m (depotsAt + i)) (m.int dcountAt).toNat

def Image.paras (m : Image) : List ParaImage := cells m.para (m.int pnumAt).toNat

/-- The loop of `depot_find_byname`; `nameOf` are the names of the depots in memory. -/
def depotFindLoop (nameOf : UInt32 → Option CString) (m : Image) (name : CString) :
    Nat → Nat → Option (Option Nat)
  | 0, _ => some none
  | left+1, i => do
      let own ← nameOf (m (depotsAt + i))
      if CString.strcasecmp own name = 0 then some (some i)
      else depotFindLoop nameOf m name left (i + 1)

def Image.depotFindByname (nameOf : UInt32 → Option CString) (m : Image) (name : Option CString) :
    Option (Option Nat) :=
  match name with
  | none => some none
  | some name => depotFindLoop nameOf m name (m.int dcountAt).toNat 0

/-- A word is written; outside of the manager the behaviour is undefined. -/
def Image.store (m : Image) (w : Int) (x : UInt32) : Option Image :=
  if 0 ≤ w ∧ w < managerWords then some (update m w.toNat x) else none

def removeDepot (m : Image) (t : Nat) : Option Image := do
  let n := m.int dcountAt
  let m : Image := if t + 1 < n then
      memmove m (depotsAt + t) (depotsAt + t + 1) (idepotWords * (n - 1 - t).toNat)
    else m
  let m ← m.store (depotsAt + (m.int dcountAt - 1)) 0
  some (update m dcountAt (m dcountAt - 1))

def ParaImage.texts (p : ParaImage) : List UInt32 := [p.name, p.value].filter (· != 0)

def removeLoop (depot : UInt32) : Nat → Nat → Nat → Image → Nat × Image × List UInt32
  | 0, _, j, m => (j, m, [])
  | left+1, i, j, m =>
      let slot := plistAt + paraWords * i
      if (m.para i).depot != depot then
        removeLoop depot left (i + 1) (j + 1)
          (if j ≠ i then
            memset (memmove m (plistAt + paraWords * j) slot paraWords) slot paraWords 0 else m)
      else
        let (j, m', freed) := removeLoop depot left (i + 1) j (memset m slot paraWords 0)
        (j, m', (m.para i).texts ++ freed)

def dropParas (m : Image) (depot : UInt32) : Image × List UInt32 :=
  let r := removeLoop depot (m.int pnumAt).toNat 0 0 m
  (update r.2.1 pnumAt (UInt32.ofNat r.1), r.2.2)

/-- `sw_parameter_unregister_depot`: the manager and what has been freed. The result is
true in every case. -/
def swParameterUnregisterDepot (nameOf : UInt32 → Option CString) (m : Image)
    (name : Option CString) : Option (Image × List UInt32) := do
  match ← m.depotFindByname nameOf name with
  | none => some (m, [])
  | some t => do
      let depot := m (depotsAt + t)
      let m ← removeDepot m t
      some (if depot = 0 then (m, []) else dropParas m depot)

/-- A manager with depots: they are there, and none lies in the first bytes of the memory. -/
structure Managed (nameOf : UInt32 → Option CString) (m : Image) : Prop where
  dcount : 1 ≤ m.int dcountAt ∧ m.int dcountAt ≤ 8
  pnum : 0 ≤ m.int pnumAt ∧ m.int pnumAt ≤ 2048
  named : ∀ d ∈ m.depots, (nameOf d).isSome
  distinct : m.depots.Nodup
  address : ∀ d ∈ m.depots, 8 < d.toNat
  default : m defdepotAt = 0 ∨ m defdepotAt ∈ m.depots

/-- The depot with index `t` and its parameters are gone, and nothing else has changed. -/
structure Unregistered (m : Image) (t : Nat) (m' : Image) (freed : List UInt32) : Prop where
  depots : m'.depots = m.depots.eraseIdx t
  paras : m'.paras = m.paras.filter (·.depot != m (depotsAt + t))
  freed : freed = (m.paras.filter (·.depot == m (depotsAt + t))).flatMap ParaImage.texts
  frame : ∀ w, w < depotsAt ∨ observersAt ≤ w ∧ w ≤ ocountAt ∨ pnumAt < w → m' w = m w
  default : m' defdepotAt = 0 ∨ m' defdepotAt ∈ m'.depots

section
variable {m : Image}

theorem para_congr {m' : Image}
    (h : ∀ w, plistAt + paraWords * i ≤ w → w < plistAt + paraWords * i + paraWords → m' w = m w) :
    m'.para i = m.para i := by
  have hwords := words
  simp only [Image.para]
  rw [h _ le_rfl (by omega), h _ (Nat.le_add_right _ 1) (by omega),
    h _ (Nat.le_add_right _ 2) (by omega), h _ (Nat.le_add_right _ 3) (by omega)]

theorem para_memset :
    Image.para (memset m (plistAt + paraWords * i) paraWords 0) = update m.para i ⟨0, 0, 0, 0⟩ := by
  have hwords : paraWords = 4 := rfl
  funext k
  by_cases hk : k = i
  · subst hk
    rw [update_self]
    simp [Image.para, memset, hwords]
  · rw [update_of_ne hk]
    apply para_congr
    intro w hle hlt
    rw [hwords] at hle hlt
    exact if_neg (by rw [hwords]; omega)

theorem para_memmove :
    Image.para (memmove m (plistAt + paraWords * j) (plistAt + paraWords * i) paraWords) =
      memmove m.para j i 1 := by
  have hwords : paraWords = 4 := rfl
  funext k
  by_cases hk : k = j
  · subst hk
    simp [Image.para, memmove, hwords, Nat.add_assoc, Nat.add_sub_add_left]
  · have houtside : memmove m.para j i 1 k = m.para k := if_neg (by omega)
    rw [houtside]
    apply para_congr
    intro w hle hlt
    rw [hwords] at hle hlt
    exact if_neg (by rw [hwords]; omega)

theorem removeLoop_compact : ((removeLoop depot left i j m).1,
    (removeLoop depot left i j m).2.1.para) =
      compact (·.depot != depot) ⟨0, 0, 0, 0⟩ left i j m.para := by
  induction left generalizing i j m with
  | zero => rfl
  | succ left ih =>
    rw [removeLoop, compact]
    split
    · rw [ih]
      congr 1
      split
      · rw [para_memset, para_memmove]
      · rfl
    · rw [← para_memset, ← ih]

theorem removeLoop_freed (depot : UInt32) (left i j : Nat) (m : Image) (hij : j ≤ i) :
    (removeLoop depot left i j m).2.2 =
      ((cells (fun k => m.para (i + k)) left).filter (·.depot == depot)).flatMap
      ParaImage.texts := by
  induction left generalizing i j m with
  | zero => rfl
  | succ left ih =>
    have hbehind {m' : Image} (h : ∀ k, i < k → m'.para k = m.para k) :
        cells (fun k => m'.para (i + 1 + k)) left = cells (fun k => m.para (i + 1 + k)) left :=
      cells_congr fun k _ => h _ (by omega)
    rw [removeLoop, cells_shift]
    split
    · rename_i hkeep
      rw [ih _ _ _ (by omega), hbehind, filter_cons_of_neg (by simpa using hkeep)]
      intro k hk
      split
      · rw [para_memset, para_memmove, update_of_ne (by omega)]
        exact if_neg (by omega)
      · rfl
    · rename_i hkeep
      dsimp only
      rw [ih _ _ _ (by omega), hbehind, filter_cons_of_pos (by simpa using hkeep), flatMap_cons]
      intro k hk
      rw [para_memset, update_of_ne (by omega)]

theorem removeLoop_frame (depot : UInt32) (left i j : Nat) (m : Image) (hij : j ≤ i)
    (hw : w < plistAt ∨ plistAt + paraWords * (i + left) ≤ w) :
    (removeLoop depot left i j m).2.1 w = m w := by
  induction left generalizing i j m with
  | zero => rfl
  | succ left ih =>
    have hnext : w < plistAt ∨ plistAt + paraWords * (i + 1 + left) ≤ w := by
      rwa [Nat.add_right_comm i 1 left]
    have hwords : paraWords = 4 := rfl
    rw [hwords] at hw
    rw [removeLoop]
    split
    · rw [ih _ _ _ (by omega) hnext]
      split
      · rw [memset, hwords, if_neg (by omega), memmove, if_neg (by omega)]
      · rfl
    · dsimp only
      rw [ih _ _ _ (by omega) hnext, memset, hwords, if_neg (by omega)]

theorem dropParas_frame (hpnum : m.int pnumAt ≤ 2048) (depot : UInt32)
    (hw : w < plistAt ∨ pnumAt < w) : (dropParas m depot).1 w = m w := by
  have hwords := words
  refine (update_of_ne (by omega) _ _).trans ?_
  exact removeLoop_frame depot _ 0 0 m le_rfl (by rw [paraWords]; omega)

theorem int_ofNat (hn : n < 2^31) : (UInt32.ofNat n).toBitVec.toInt = n := by
  rw [BitVec.toInt_eq_toNat_cond]
  simp only [UInt32.toBitVec_ofNat', BitVec.toNat_ofNat]
  omega

theorem int_pred {x : UInt32} : (x - 1).toBitVec.toInt =
    if x.toBitVec.toInt = -2^31 then 2^31 - 1 else x.toBitVec.toInt - 1 := by
  have hlt := x.toBitVec.isLt
  have hone : (1 : UInt32).toBitVec.toNat = 1 := rfl
  simp only [BitVec.toInt_eq_toNat_cond, UInt32.toBitVec_sub, BitVec.toNat_sub, hone]
  omega

theorem dropParas_paras (hpnum : m.int pnumAt ≤ 2048) :
    (dropParas m depot).1.paras = m.paras.filter (·.depot != depot) := by
  have hcells := cells_compact (·.depot != depot) ⟨0, 0, 0, 0⟩
    (m.int pnumAt).toNat 0 0 m.para le_rfl
  rw [← removeLoop_compact] at hcells
  simp only [Nat.zero_add] at hcells
  change cells (Image.para _) _ = m.paras.filter (·.depot != depot) at hcells
  -- the number of descriptions left fits an `int`
  have hcount : (removeLoop depot (m.int pnumAt).toNat 0 0 m).1 ≤ 2048 := by
    have hlen := congrArg List.length hcells
    rw [cells_length] at hlen
    have hfilter := length_filter_le (·.depot != depot) m.paras
    rw [Image.paras, cells_length] at hfilter
    rw [hlen, Image.paras]
    omega
  have hpnum' : (dropParas m depot).1.int pnumAt =
    (removeLoop depot (m.int pnumAt).toNat 0 0 m).1 := by
    have hword : (dropParas m depot).1 pnumAt =
        UInt32.ofNat (removeLoop depot (m.int pnumAt).toNat 0 0 m).1 := by
      simp [dropParas]
    rw [Image.int, hword]
    exact int_ofNat (by omega)
  rw [Image.paras, hpnum', Int.toNat_natCast, ← hcells]
  apply cells_congr
  intro k hk
  apply para_congr
  intro w _ hlt
  have hwords := words
  rw [paraWords] at hlt
  exact update_of_ne (by omega) _ _

theorem dropParas_freed {m : Image} {depot : UInt32} :
    (dropParas m depot).2 = (m.paras.filter (·.depot == depot)).flatMap ParaImage.texts := by
  have hfreed := removeLoop_freed depot (m.int pnumAt).toNat 0 0 m le_rfl
  simp only [Nat.zero_add] at hfreed
  exact hfreed

end

section
variable {nameOf : UInt32 → Option CString} {m : Image}

def IsNamed (nameOf : UInt32 → Option CString) (name : CString) (depot : UInt32) : Prop :=
  ∃ own, nameOf depot = some own ∧ CString.strcasecmp own name = 0

theorem Image.depots_length (m : Image) : m.depots.length = (m.int dcountAt).toNat :=
  cells_length ..

theorem Image.mem_depots (m : Image) (hi : i < m.depots.length) : m (depotsAt + i) ∈ m.depots := by
  rw [m.depots_length] at hi
  exact mem_cells.2 ⟨i, hi, rfl⟩

theorem Image.depots_of_last (ht : t + 1 = m.depots.length) :
    m.depots = cells (fun i => m (depotsAt + i)) t ++ [m (depotsAt + t)] := by
  rw [m.depots_length] at ht
  rw [Image.depots, ← ht, cells_succ]

theorem Image.eraseIdx_last (ht : t + 1 = m.depots.length) :
    m.depots.eraseIdx t = cells (fun i => m (depotsAt + i)) t := by
  rw [Image.depots_of_last ht, eraseIdx_append_of_length_le (by simp)]
  simp

section
variable (h : Managed nameOf m)
include h

theorem Managed.ne_zero (hd : d ∈ m.depots) : d ≠ 0 := by
  rintro rfl
  exact absurd (h.address 0 hd) (by decide)

theorem Managed.removeDepot_last (ht : t + 1 = m.depots.length) :
    removeDepot m t = some (update (update m (depotsAt + t) 0) dcountAt (m dcountAt - 1)) := by
  have hcount := h.dcount
  rw [m.depots_length] at ht
  have hlast : ¬((t : Int) + 1 < m.int dcountAt) := by omega
  have hat : (depotsAt : Int) + (m.int dcountAt - 1) = (depotsAt + t : Nat) := by omega
  have hwords := words
  have hbound : (0 : Int) ≤ (depotsAt + t : Nat) ∧
    ((depotsAt + t : Nat) : Int) < managerWords := by omega
  have hne : dcountAt ≠ depotsAt + t := by omega
  simp only [removeDepot, if_neg hlast, hat, Image.store, if_pos hbound, Int.toNat_natCast,
    bind_eq_bind, bind_some, update_of_ne hne]

/-- Before a further depot the `memmove` shifts the fields behind the array, too: the default
depot becomes the number of depots, and their number the first observer. -/
theorem Managed.removeDepot_moves (ht : t + 1 < m.depots.length)
    (hremove : removeDepot m t = some m₁) :
    ∃ m₂ : Image, ∃ w : Nat, (w : Int) = depotsAt + ((m observersAt).toBitVec.toInt - 1) ∧
      m₂ defdepotAt = m dcountAt ∧ m₂ dcountAt = m observersAt ∧ m₂ pnumAt = m pnumAt ∧
      m₁ = update (update m₂ w 0) dcountAt (update m₂ w 0 dcountAt - 1) := by
  have hcount := h.dcount
  rw [m.depots_length] at ht
  have hmoves : (t : Int) + 1 < m.int dcountAt := by omega
  have hwords := words
  obtain ⟨m₂, hm₂⟩ : ∃ m₂ : Image,
    memmove m (depotsAt + t) (depotsAt + t + 1) (idepotWords * (m.int dcountAt - 1 - t).toNat) =
      m₂ := ⟨_, rfl⟩
  have hshift (w : Nat) (hw : w = 14 ∨ w = 15) : m₂ w = m (w + 1) := by
    rw [← hm₂, idepotWords, memmove, if_pos (by omega)]
    congr 1
    omega
  have hdcount := hshift dcountAt (.inr rfl)
  have hpnum : m₂ pnumAt = m pnumAt := by
    rw [← hm₂, idepotWords, memmove, if_neg (by omega)]
  simp only [removeDepot, if_pos hmoves, hm₂] at hremove
  obtain ⟨m₃, hstore, hm₁⟩ := bind_eq_some_iff.1 hremove
  rw [Image.store] at hstore
  split at hstore
  · rename_i hin
    cases hstore
    cases hm₁
    refine ⟨m₂, _, ?_, hshift defdepotAt (.inl rfl), hdcount, hpnum, rfl⟩
    rw [Int.toNat_of_nonneg hin.1, Image.int, hdcount]
    rfl
  · cases hstore

variable (hname : IsNamed nameOf name (m (depotsAt + t)))
  (hfirst : ∀ k, k < t → ¬IsNamed nameOf name (m (depotsAt + k)))
include hname hfirst

omit h in
theorem depotFindLoop_eq (hit : i ≤ t) (ht : t < i + left)
    (hnamed : ∀ k, k ≤ t → (nameOf (m (depotsAt + k))).isSome) :
    depotFindLoop nameOf m name left i = some (some t) := by
  induction left generalizing i with
  | zero => omega
  | succ left ih =>
    obtain ⟨own, hown⟩ := isSome_iff_exists.1 (hnamed i hit)
    rw [depotFindLoop, hown]
    simp only [bind_eq_bind, bind_some]
    by_cases heq : i = t
    · subst heq
      obtain ⟨own', hown', hzero⟩ := hname
      cases some.inj (hown.symm.trans hown')
      rw [if_pos hzero]
    · have hother : ¬CString.strcasecmp own name = 0 := by
        intro hzero
        exact hfirst i (by omega) ⟨own, hown, hzero⟩
      rw [if_neg hother]
      exact ih (by omega) (by omega)

theorem Managed.unregister_eq (ht : t < m.depots.length) :
    swParameterUnregisterDepot nameOf m (some name) =
      (removeDepot m t).map fun m₁ => dropParas m₁ (m (depotsAt + t)) := by
  have hfind : m.depotFindByname nameOf (some name) = some (some t) := by
    apply depotFindLoop_eq hname hfirst (Nat.zero_le t)
    · rw [m.depots_length] at ht
      omega
    · intro k hk
      exact h.named _ (m.mem_depots (by omega))
  rw [swParameterUnregisterDepot, hfind]
  simp only [bind_eq_bind, bind_some, if_neg (h.ne_zero (m.mem_depots ht)), map_eq_bind]
  rfl

theorem Managed.unregister_last (ht : t + 1 = m.depots.length) :
    ∃ m' freed, swParameterUnregisterDepot nameOf m (some name) = some (m', freed) ∧
    m' defdepotAt = m defdepotAt ∧
      (m defdepotAt = 0 ∨ m defdepotAt ∈ m.depots.eraseIdx t → Unregistered m t m' freed) := by
  obtain ⟨hone, height⟩ := h.dcount
  have hlen := ht
  rw [m.depots_length] at hlen
  have hwords := words
  obtain ⟨m₁, hm₁⟩ : ∃ m₁ : Image,
    update (update m (depotsAt + t) 0) dcountAt (m dcountAt - 1) = m₁ := ⟨_, rfl⟩
  have hsame (w : Nat) (hw : w ≠ depotsAt + t) (hw' : w ≠ dcountAt) : m₁ w = m w := by
    rw [← hm₁, update_of_ne hw', update_of_ne hw]
  have hpnum : m₁.int pnumAt = m.int pnumAt := by
    rw [Image.int, Image.int, hsame _ (by omega) (by omega)]
  have hparas : m₁.paras = m.paras := by
    rw [Image.paras, Image.paras, hpnum]
    apply cells_congr
    intro k _
    apply para_congr
    intro w hle _
    exact hsame w (by omega) (by omega)
  have hbound : m₁.int pnumAt ≤ 2048 := hpnum ▸ h.pnum.2
  have hframe (w : Nat) (hw : w < plistAt ∨ pnumAt < w) :
      (dropParas m₁ (m (depotsAt + t))).1 w = m₁ w := dropParas_frame hbound _ hw
  have hdefault : (dropParas m₁ (m (depotsAt + t))).1 defdepotAt = m defdepotAt := by
    rw [hframe _ (by omega), hsame _ (by omega) (by omega)]
  have hdepots : (dropParas m₁ (m (depotsAt + t))).1.depots = m.depots.eraseIdx t := by
    have hcount : (dropParas m₁ (m (depotsAt + t))).1.int dcountAt = t := by
      rw [Image.int, hframe _ (by omega), ← hm₁, update_self, int_pred]
      rw [Image.int] at hlen hone
      omega
    rw [Image.eraseIdx_last ht, Image.depots, hcount, Int.toNat_natCast]
    apply cells_congr
    intro i hi
    rw [hframe _ (by omega), hsame _ (by omega) (by omega)]
  refine ⟨_, (dropParas m₁ (m (depotsAt + t))).2, ?_, hdefault,
    fun hleft => ⟨hdepots, ?_, ?_, ?_, ?_⟩⟩
  · rw [h.unregister_eq hname hfirst (by omega), h.removeDepot_last ht, hm₁]
    rfl
  · rw [dropParas_paras hbound, hparas]
  · rw [dropParas_freed, hparas]
  · intro w hw
    rw [hframe w (by omega), hsame w (by omega) (by omega)]
  · rwa [hdefault, hdepots]

theorem Managed.not_unregistered (ht : t + 1 < m.depots.length)
    (heq : swParameterUnregisterDepot nameOf m (some name) = some (m', freed)) :
    ¬Unregistered m t m' freed := by
  intro hunregistered
  obtain ⟨hone, height⟩ := h.dcount
  rw [h.unregister_eq hname hfirst (by omega)] at heq
  obtain ⟨m₁, hremove, hdrop⟩ := map_eq_some_iff.1 heq
  obtain ⟨m₂, w, hw, hdefdepot, hdcount, hpnum, rfl⟩ := h.removeDepot_moves ht hremove
  have hbound : Image.int (update (update m₂ w 0) dcountAt
      (update m₂ w 0 dcountAt - 1)) pnumAt ≤ 2048 := by
    rw [Image.int, update_of_ne (by decide), update_apply]
    split
    · decide
    · rw [hpnum]
      exact h.pnum.2
  have hframe (v : Nat) (hv : v < plistAt) : m' v = update (update m₂ w 0) dcountAt
      (update m₂ w 0 dcountAt - 1) v := by
    have hkept := dropParas_frame hbound (m (depotsAt + t)) (.inl hv)
    rwa [hdrop] at hkept
  have hlen := hunregistered.depots
  have hsub : ∀ d ∈ m'.depots, d ∈ m.depots := by
    rw [hlen]
    exact fun d hd => mem_of_mem_eraseIdx hd
  replace hlen := congrArg List.length hlen
  rw [length_eraseIdx_of_lt (by omega), m'.depots_length, Image.int, hframe _ (by decide),
    update_self, m.depots_length] at hlen
  rw [m.depots_length] at ht
  -- the number of depots is right only if the address of the first observer happens to be it
  have hcount : (m observersAt).toBitVec.toInt = m.int dcountAt := by
    rw [update_apply] at hlen
    split at hlen
    · have hminus : ((0 : UInt32) - 1).toBitVec.toInt = -1 := by decide
      rw [hminus] at hlen
      omega
    · rw [hdcount] at hlen
      rw [int_pred] at hlen
      omega
  have hdefault := hunregistered.default
  have hwords := words
  rw [hframe _ (by decide), update_of_ne (by decide),
    update_of_ne (by omega), hdefdepot] at hdefault
  -- and then the default depot is a small number
  have hsmall : ((m dcountAt).toNat : Int) = m.int dcountAt := by
    have hlt := (m dcountAt).toNat_lt
    rw [Image.int, BitVec.toInt_eq_toNat_cond, UInt32.toNat_toBitVec] at hone ⊢
    split
    · rfl
    · rename_i hlarge
      rw [if_neg hlarge] at hone
      omega
  rcases hdefault with hzero | hmem
  · rw [hzero] at hsmall
    have : (0 : UInt32).toNat = 0 := rfl
    omega
  · have := h.address _ (hsub _ hmem)
    omega

end

/-- The call does what it is for exactly if the depot is the last one and not the default one. -/
theorem unregister_iff {name : CString} {t : Nat} (h : Managed nameOf m) (ht : t < m.depots.length)
    (hname : IsNamed nameOf name (m (depotsAt + t)))
    (hfirst : ∀ k, k < t → ¬IsNamed nameOf name (m (depotsAt + k))) :
    (∃ m' freed, swParameterUnregisterDepot nameOf m (some name) = some (m', freed) ∧
      Unregistered m t m' freed) ↔ t + 1 = m.depots.length ∧ m defdepotAt ≠ m (depotsAt + t) := by
  have hmem := m.mem_depots ht
  by_cases hlast : t + 1 = m.depots.length
  · obtain ⟨m', freed, heq, hdefault, hwhole⟩ := h.unregister_last hname hfirst hlast
    have hsplit := Image.depots_of_last hlast
    rw [Image.eraseIdx_last hlast] at hwhole
    constructor
    · rintro ⟨m'', freed', heq', hunregistered⟩
      cases some.inj (heq.symm.trans heq')
      refine ⟨hlast, ?_⟩
      intro hsame
      have hleft := hunregistered.default
      rw [hdefault, hsame, hunregistered.depots, Image.eraseIdx_last hlast] at hleft
      rcases hleft with hzero | hleft
      · exact h.ne_zero hmem hzero
      · have hnodup := h.distinct
        rw [hsplit, nodup_append] at hnodup
        exact hnodup.2.2 _ hleft _ (mem_singleton_self _) rfl
    · rintro ⟨-, hother⟩
      refine ⟨m', freed, heq, hwhole ?_⟩
      rcases h.default with hzero | hdef
      · exact .inl hzero
      · rw [hsplit, mem_append, mem_singleton] at hdef
        exact .inr (hdef.resolve_right hother)
  · constructor
    · rintro ⟨m', freed, heq, hunregistered⟩
      exact absurd hunregistered (h.not_unregistered hname hfirst (by omega) heq)
    · rintro ⟨hlast', -⟩
      exact absurd hlast' hlast

end

def twoDepots : Image := fun w =>
  ([(5, 7), (depotsAt, 100), (depotsAt + 1, 200), (defdepotAt, 100), (dcountAt, 2), (plistAt, 1000),
    (plistAt + 1, 1001), (plistAt + 3, 200), (plistAt + 4, 1002), (plistAt + 5, 1003),
    (plistAt + 7, 100), (pnumAt, 2)].lookup w).getD 0

def twoNames (d : UInt32) : Option CString :=
  if d = 100 then some (cstring [97]) else if d = 200 then some (cstring [98]) else none

/-- `b` is the last depot and not the default one. -/
theorem unregister_iff_last : ∃ m' freed,
    swParameterUnregisterDepot twoNames twoDepots (some (cstring [66])) = some (m', freed) ∧
    Unregistered twoDepots 1 m' freed := by
  have hdepots : twoDepots.depots = [100, 200] := by decide +kernel
  have hfirst : twoNames (twoDepots depotsAt) = some (cstring [97]) := by decide +kernel
  have hsecond : twoNames (twoDepots (depotsAt + 1)) = some (cstring [98]) := by decide +kernel
  have hmanaged : Managed twoNames twoDepots := by
    refine ⟨by decide +kernel, by decide +kernel, ?_, ?_, ?_, by decide +kernel⟩
    all_goals rw [hdepots]
    · exact forall_mem_cons.2 ⟨rfl, forall_mem_singleton.2 rfl⟩
    · decide +kernel
    · exact forall_mem_cons.2 ⟨by decide, forall_mem_singleton.2 (by decide)⟩
  refine (unregister_iff (t := 1) hmanaged ?_ ⟨_, hsecond, by decide +kernel⟩ ?_).2
    ⟨?_, by decide +kernel⟩
  · rw [hdepots]
    decide
  · intro k hk
    cases Nat.lt_one_iff.1 hk
    rintro ⟨own, hown, hzero⟩
    cases some.inj (hfirst.symm.trans hown)
    exact absurd hzero (by decide +kernel)
  · rw [hdepots]
    rfl

/-- `a` is the first depot: the default depot is the number 2 afterwards, the number of depots is
-1, and the timeout is gone. -/
theorem unregister_shifts_fields : ∃ m' freed,
    swParameterUnregisterDepot twoNames twoDepots (some (cstring [97])) = some (m', freed) ∧
    m' 5 = 0 ∧ m' defdepotAt = 2 ∧ m'.int dcountAt = -1 ∧ ¬Unregistered twoDepots 0 m' freed := by
  obtain ⟨m', freed, heq, htimeout, hdefault, hcount⟩ : ∃ m' freed,
      swParameterUnregisterDepot twoNames twoDepots (some (cstring [97])) = some (m', freed) ∧
      m' 5 = 0 ∧ m' defdepotAt = 2 ∧ m'.int dcountAt = -1 := by decide +kernel
  refine ⟨m', freed, heq, htimeout, hdefault, hcount, ?_⟩
  intro hunregistered
  have hframe := hunregistered.frame 5 (by decide)
  rw [htimeout] at hframe
  exact absurd hframe (by decide)

end SwApi.Parameter
