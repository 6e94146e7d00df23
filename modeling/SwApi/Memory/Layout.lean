import Mathlib.Data.List.Nodup
import SwApi.Library.LinkedList
import SwApi.Memory.Model

/-! The layout of a pool in natural numbers, where nothing wraps, and the three edits of its list.
-/
namespace SwApi.Memory
open Library List Option Function

namespace Pool

def lead (xm : Pool) : Nat := roundUp xm.align nodeBytes

def extent (xm : Pool) (a : Nat) : Nat := (xm.node a).size.toNat

def blockEnd (xm : Pool) (a : Nat) : Nat := a + xm.lead + xm.extent a

def nextPlace (xm : Pool) (a : Nat) : Nat := a + xm.lead + roundUp xm.align (xm.extent a)

end Pool

/-- A buffer whose addresses do not wrap, rounded to a power of two. -/
structure Sound (xm : Pool) : Prop where
  power : ∃ k, k < 31 ∧ xm.align = 2 ^ k
  aligned : xm.align ∣ xm.buf
  start : 0 < xm.buf
  finish : (xm.limit : Int) = xm.buf + xm.size
  small : xm.size < 2 ^ 31

/-- The list of the pool is `nodes`: in the order of the addresses, every header and
block in its own room inside the buffer. -/
structure Represents (xm : Pool) (nodes : List Nat) : Prop where
  linked : Linked (fun a => (xm.node a).prev) (fun a => (xm.node a).next) 0 nodes 0
  list : xm.list = nodes.headD 0
  tail : xm.tail = nodes.getLastD 0
  first : xm.first = 0 ∨ xm.first ∈ nodes
  aligned : ∀ a ∈ nodes, xm.align ∣ a
  low : ∀ a ∈ nodes, xm.buf ≤ a
  sized : ∀ a ∈ nodes, memCheckSize ≤ (xm.node a).size
  apart : nodes.Pairwise fun a b => xm.blockEnd a ≤ b
  high : ∀ a ∈ nodes, xm.blockEnd a ≤ xm.limit

structure SameBuffer (xm xm' : Pool) : Prop where
  buf : xm'.buf = xm.buf
  size : xm'.size = xm.size
  align : xm'.align = xm.align

section
variable {xm : Pool}

theorem limit_lt (xm : Pool) : xm.limit < 2 ^ 32 := by
  rw [Pool.limit, addr]
  omega

section
variable (h : Sound xm)
include h

theorem Sound.align_pos : 0 < xm.align := by
  obtain ⟨k, -, hk⟩ := h.power
  rw [hk]
  exact Nat.two_pow_pos k

theorem Sound.limit_near : xm.limit < xm.buf + 2 ^ 31 := by
  have hfinish := h.finish
  have hsmall := h.small
  omega

theorem Sound.lead_ge : 20 ≤ xm.lead := le_roundUp h.align_pos

theorem Sound.alignPtr_mod (ha : xm.align ∣ a) (n : Nat) :
    alignPtr (xm.align - 1) a n = (a + roundUp xm.align n) % 2 ^ 32 := by
  obtain ⟨k, hk, hpow⟩ := h.power
  rw [hpow] at ha ⊢
  exact alignDown_addr (by omega) ha n

theorem Sound.alignPtr_eq (ha : xm.align ∣ a) (hlt : a + roundUp xm.align n < 2 ^ 32) :
    alignPtr (xm.align - 1) a n = a + roundUp xm.align n := by
  rw [h.alignPtr_mod ha, Nat.mod_eq_of_lt hlt]

theorem Sound.user_eq (ha : xm.align ∣ a) (hlt : a + xm.lead < 2 ^ 32) :
    xm.user a = a + xm.lead :=
  h.alignPtr_eq ha hlt

theorem Sound.alignSize_eq (hlt : roundUp xm.align n < 2 ^ 32) :
    alignSize (xm.align - 1) n = roundUp xm.align n := by
  have hzero := h.alignPtr_eq (Nat.dvd_zero xm.align) (by rw [Nat.zero_add]; exact hlt)
  rw [Nat.zero_add] at hzero
  rw [← hzero, alignPtr, alignSize, Nat.cast_zero, add_zero]

end

theorem Sound.dvd_lead (xm : Pool) : xm.align ∣ xm.lead := dvd_roundUp ..

theorem dvd_nextPlace (ha : xm.align ∣ a) : xm.align ∣ xm.nextPlace a :=
  Nat.dvd_add (Nat.dvd_add ha (dvd_roundUp ..)) (dvd_roundUp ..)

theorem Sound.blockEnd_le (h : Sound xm) : xm.blockEnd a ≤ xm.nextPlace a := by
  have := le_roundUp (x := xm.extent a) h.align_pos
  rw [Pool.blockEnd, Pool.nextPlace]
  omega

theorem Sound.nextPlace_le (h : Sound xm) (ha : xm.align ∣ a) (hb : xm.align ∣ b)
    (hle : xm.blockEnd a ≤ b) : xm.nextPlace a ≤ b := by
  have hround := roundUp_add (y := xm.extent a) (Nat.dvd_add ha (Sound.dvd_lead xm)) h.align_pos
  rw [Pool.nextPlace, ← hround]
  exact roundUp_le hb hle h.align_pos

theorem Sound.nodeOf_eq (h : Sound xm) (ha : xm.align ∣ a) (hlt : a + xm.lead < 2 ^ 32) :
    xm.nodeOf (a + xm.lead) = a := by
  have hge : nodeBytes ≤ xm.lead := h.lead_ge
  have hless := roundUp_lt (x := nodeBytes) h.align_pos
  obtain ⟨k, hk, hpow⟩ := h.power
  have hback : ((a + xm.lead : Nat) : Int) - nodeBytes =
    ((a + (xm.lead - nodeBytes) : Nat) : Int) := by
    omega
  rw [Pool.nodeOf, addr_eq hback (by omega), hpow]
  apply alignDown_back (by omega) (hpow ▸ ha)
  · rw [← hpow]
    change xm.lead < nodeBytes + xm.align at hless
    omega
  · omega

end

section
variable {stop stop' : Nat → Nat} {xs : List Nat}

theorem stop_le_of_last (hpos : ∀ a, a < stop a) (h : xs.Pairwise fun a b => stop a ≤ b)
    (hlast : ∀ a ∈ xs.getLast?, stop a ≤ x) : ∀ a ∈ xs, stop a ≤ x := by
  induction xs with
  | nil =>
    intro a ha
    cases ha
  | cons b xs ih =>
    rw [pairwise_cons] at h
    cases xs with
    | nil =>
      intro a ha
      cases mem_singleton.1 ha
      exact hlast _ rfl
    | cons c xs =>
      rw [getLast?_cons_cons] at hlast
      have hrest := ih h.2 hlast
      intro a ha
      rcases mem_cons.1 ha with rfl | ha
      · calc stop a ≤ c := h.1 c mem_cons_self
          _ ≤ stop c := (hpos c).le
          _ ≤ x := hrest c mem_cons_self
      · exact hrest a ha

theorem le_of_first (hpos : ∀ a, a < stop a) (h : xs.Pairwise fun a b => stop a ≤ b)
    (hfirst : ∀ a ∈ xs.head?, x ≤ a) : ∀ a ∈ xs, x ≤ a := by
  intro a ha
  cases xs with
  | nil => cases ha
  | cons b xs =>
    rcases mem_cons.1 ha with rfl | ha
    · exact hfirst a rfl
    · calc x ≤ b := hfirst b rfl
        _ ≤ stop b := (hpos b).le
        _ ≤ a := (pairwise_cons.1 h).1 a ha

theorem apart_insert (h : (xs ++ ys).Pairwise fun a b => stop a ≤ b)
    (hsame : ∀ a ∈ xs ++ ys, stop' a = stop a) (hleft : ∀ a ∈ xs, stop a ≤ x)
    (hright : ∀ b ∈ ys, stop' x ≤ b) : (xs ++ x :: ys).Pairwise fun a b => stop' a ≤ b := by
  have hkept : (xs ++ ys).Pairwise fun a b => stop' a ≤ b := by
    apply h.imp_of_mem
    intro a b ha _ hab
    rw [hsame a ha]
    exact hab
  rw [pairwise_append] at hkept
  rw [pairwise_append, pairwise_cons]
  refine ⟨hkept.1, ⟨hright, hkept.2.1⟩, ?_⟩
  intro a ha b hb
  rcases mem_cons.1 hb with rfl | hb
  · rw [hsame a (mem_append_left _ ha)]
    exact hleft a ha
  · exact hkept.2.2 a ha b hb

end

theorem Represents.ne_zero (h : Represents xm nodes) (hs : Sound xm) (ha : a ∈ nodes) : a ≠ 0 := by
  have hlow := h.low a ha
  have hstart := hs.start
  omega

theorem Sound.lt_blockEnd (hs : Sound xm) (a : Nat) : a < xm.blockEnd a := by
  have hge := hs.lead_ge
  rw [Pool.blockEnd]
  omega

section
variable (h : Represents xm nodes)
include h

theorem Represents.increasing (hs : Sound xm) : nodes.Pairwise (· < ·) := by
  apply h.apart.imp
  intro a b hab
  exact lt_of_lt_of_le (hs.lt_blockEnd _) hab

theorem Represents.nodup (hs : Sound xm) : nodes.Nodup :=
  (h.increasing hs).imp ne_of_lt

theorem Represents.end_le (ha : a ∈ nodes) : a + xm.lead + xm.extent a ≤ xm.limit := h.high a ha

theorem Represents.user_eq (hs : Sound xm) (ha : a ∈ nodes) :
    xm.user a = a + xm.lead := by
  apply hs.user_eq (h.aligned a ha)
  have hhigh := h.end_le ha
  have hlimit := limit_lt xm
  omega

theorem Represents.size_eq (ha : a ∈ nodes) : (xm.node a).size = xm.extent a := by
  have hsized := h.sized a ha
  rw [Pool.extent]
  omega

end

theorem SameBuffer.lead (h : SameBuffer xm xm') : xm'.lead = xm.lead := by
  rw [Pool.lead, h.align]
  rfl

theorem SameBuffer.limit (h : SameBuffer xm xm') : xm'.limit = xm.limit := by
  rw [Pool.limit, h.buf, h.size]
  rfl

theorem SameBuffer.blockEnd (h : SameBuffer xm xm') (hsize : (xm'.node a).size = (xm.node a).size) :
    xm'.blockEnd a = xm.blockEnd a := by
  rw [Pool.blockEnd, Pool.blockEnd, Pool.extent, Pool.extent, h.lead, hsize]

theorem Represents.congr (h : Represents xm nodes) (hsame : SameBuffer xm xm')
    (hnode : xm'.node = xm.node) (hlist : xm'.list = xm.list) (htail : xm'.tail = xm.tail)
    (hfirst : xm'.first = 0 ∨ xm'.first ∈ nodes) : Represents xm' nodes := by
  have hend : ∀ a, xm'.blockEnd a = xm.blockEnd a := fun a => hsame.blockEnd (by rw [hnode])
  refine ⟨?_, hlist.trans h.list, htail.trans h.tail, hfirst, ?_, ?_, ?_, ?_, ?_⟩
  · rw [hnode]
    exact h.linked
  · rw [hsame.align]
    exact h.aligned
  · rw [hsame.buf]
    exact h.low
  · rw [hnode]
    exact h.sized
  · simp only [hend]
    exact h.apart
  · simp only [hend, hsame.limit]
    exact h.high

theorem Sound.congr (h : Sound xm) (hsame : SameBuffer xm xm') : Sound xm' := by
  refine ⟨?_, ?_, ?_, ?_, ?_⟩
  · rw [hsame.align]
    exact h.power
  · rw [hsame.align, hsame.buf]
    exact h.aligned
  · rw [hsame.buf]
    exact h.start
  · rw [hsame.limit, hsame.buf, hsame.size]
    exact h.finish
  · rw [hsame.size]
    exact h.small

theorem Represents.account (h : Represents xm nodes) (p : Nat) (size : Int) :
    Represents (xm.account p size) nodes :=
  h.congr ⟨rfl, rfl, rfl⟩ rfl rfl rfl h.first

def Spliced (h h' : Headers) (xs : List Nat) (x : Nat) (ys : List Nat) (n : Nat) : Prop := ∀ c,
  h' c = ⟨if c = x then n else (h c).size,
    if ys.head? = some c then x else if c = x then xs.getLastD 0 else (h c).prev,
    if xs.getLast? = some c then x else if c = x then ys.headD 0 else (h c).next⟩

theorem Spliced.linked (hnode : Spliced h h' xs x ys n)
    (hlinked : Linked (fun a => (h a).prev) (fun a => (h a).next) 0 (xs ++ ys) 0)
    (hnodup : (xs ++ x :: ys).Nodup) :
    Linked (fun a => (h' a).prev) (fun a => (h' a).next) 0 (xs ++ x :: ys) 0 := by
  have hfresh : x ∉ xs ++ ys := (nodup_cons.1 (nodup_middle.1 hnodup)).1
  apply hlinked.insert hnodup
  · intro a ha hne
    simp only [hnode a, if_neg hne, if_neg ha]
  · intro a ha hne
    simp only [hnode a, if_neg hne, if_neg ha]
  · have hhead : ys.head? ≠ some x :=
      fun heq => hfresh (mem_append_right _ (mem_of_mem_head? heq))
    have hlast : xs.getLast? ≠ some x :=
      fun heq => hfresh (mem_append_left _ (mem_of_getLast? heq))
    simp only [hnode x, if_neg hhead, if_neg hlast, if_true, and_self]
  · intro b hb
    simp only [hnode b, if_pos (mem_def.1 hb)]
  · intro a ha
    simp only [hnode a, if_pos (mem_def.1 ha)]

def Unlinked (h h' : Headers) (xs ys : List Nat) : Prop := ∀ c,
  h' c = ⟨(h c).size, if ys.head? = some c then xs.getLastD 0 else (h c).prev,
    if xs.getLast? = some c then ys.headD 0 else (h c).next⟩

structure Grown (xm xm' : Pool) (nodes nodes' : List Nat) (x n : Nat) : Prop where
  same : SameBuffer xm xm'
  represents : Represents xm' nodes'
  fresh : x ∉ nodes
  mem : ∀ a, a ∈ nodes' ↔ a = x ∨ a ∈ nodes
  new : (xm'.node x).size = n
  old : ∀ a, a ≠ x → (xm'.node a).size = (xm.node a).size

theorem Represents.insert (h : Represents xm (xs ++ ys)) (hs : Sound xm) (hsame : SameBuffer xm xm')
    (hnode : Spliced xm.node xm'.node xs x ys n) (hx : xm.align ∣ x) (hlow : xm.buf ≤ x)
    (hn : memCheckSize ≤ n) (hbefore : ∀ a ∈ xs.getLast?, xm.blockEnd a ≤ x)
    (hbehind : ∀ b ∈ ys.head?, x + xm.lead + n ≤ b) (hhigh : x + xm.lead + n ≤ xm.limit)
    (hlist : xm'.list = (xs ++ x :: ys).headD 0) (htail : xm'.tail = (xs ++ x :: ys).getLastD 0)
    (hfirst : xm'.first = 0 ∨ xm'.first ∈ xs ++ x :: ys) :
    Grown xm xm' (xs ++ ys) (xs ++ x :: ys) x n := by
  have hnew : (xm'.node x).size = n := by rw [hnode, if_pos rfl]
  have hold : ∀ a, a ≠ x → (xm'.node a).size = (xm.node a).size := by
    intro a ha
    rw [hnode, if_neg ha]
  have hendOld : ∀ a, a ≠ x → xm'.blockEnd a = xm.blockEnd a := by
    intro a ha
    exact hsame.blockEnd (hold a ha)
  have hendNew : xm'.blockEnd x = x + xm.lead + n := by
    rw [Pool.blockEnd, Pool.extent, hsame.lead, hnew]
    rfl
  have hmore : x < x + xm.lead + n := by
    have hge := hs.lead_ge
    omega
  have hsplit := pairwise_append.1 h.apart
  -- the whole first part ends before the new node, the whole second part begins behind it
  have hleft : ∀ a ∈ xs, xm.blockEnd a ≤ x :=
    stop_le_of_last hs.lt_blockEnd hsplit.1 hbefore
  have hright : ∀ b ∈ ys, x + xm.lead + n ≤ b :=
    le_of_first hs.lt_blockEnd hsplit.2.1 hbehind
  have hne : ∀ a ∈ xs ++ ys, a ≠ x := by
    intro a ha
    rcases mem_append.1 ha with ha | ha
    · exact ne_of_lt (lt_of_lt_of_le (hs.lt_blockEnd _) (hleft a ha))
    · exact ne_of_gt (lt_of_lt_of_le hmore (hright a ha))
  have hcases : ∀ {p : Nat → Prop}, p x → (∀ a ∈ xs ++ ys, p a) → ∀ a ∈ xs ++ x :: ys, p a := by
    intro p hpx hpo a ha
    rcases mem_cons.1 (perm_middle.mem_iff.1 ha) with rfl | ha
    · exact hpx
    · exact hpo a ha
  have hapart : (xs ++ x :: ys).Pairwise fun a b => xm'.blockEnd a ≤ b := by
    apply apart_insert h.apart (fun a ha => hendOld a (hne a ha)) hleft
    rw [hendNew]
    exact hright
  have hnodup : (xs ++ x :: ys).Nodup :=
    nodup_middle.2 (nodup_cons.2 ⟨fun hmem => hne x hmem rfl, h.nodup hs⟩)
  refine ⟨hsame, ⟨hnode.linked h.linked hnodup, hlist, htail, hfirst, ?_, ?_, ?_, hapart, ?_⟩,
    fun hmem => hne x hmem rfl, ?_, hnew, hold⟩
  · rw [hsame.align]
    exact hcases hx h.aligned
  · rw [hsame.buf]
    exact hcases hlow h.low
  · refine hcases ?_ fun a ha => ?_
    · rw [hnew]
      exact_mod_cast hn
    · rw [hold a (hne a ha)]
      exact h.sized a ha
  · rw [hsame.limit]
    refine hcases ?_ fun a ha => ?_
    · rw [hendNew]
      exact hhigh
    · rw [hendOld a (hne a ha)]
      exact h.high a ha
  · intro a
    rw [perm_middle.mem_iff, mem_cons]

theorem Represents.remove (h : Represents xm (xs ++ x :: ys)) (hs : Sound xm)
    (hsame : SameBuffer xm xm') (hnode : Unlinked xm.node xm'.node xs ys)
    (hlist : xm'.list = (xs ++ ys).headD 0) (htail : xm'.tail = (xs ++ ys).getLastD 0)
    (hfirst : xm'.first = 0 ∨ xm'.first ∈ xs ++ ys) : Represents xm' (xs ++ ys) := by
  have hold : ∀ a, (xm'.node a).size = (xm.node a).size := by
    intro a
    rw [hnode]
  have hend : ∀ a, xm'.blockEnd a = xm.blockEnd a := fun a => hsame.blockEnd (hold a)
  have hsub : (xs ++ ys).Sublist (xs ++ x :: ys) :=
    Sublist.append (Sublist.refl xs) (sublist_cons_self x ys)
  have hlinked : Linked (fun a => (xm'.node a).prev) (fun a => (xm'.node a).next) 0
    (xs ++ ys) 0 := by
    apply h.linked.remove (h.nodup hs)
    · intro a _ hne
      simp only [hnode a, if_neg hne]
    · intro a _ hne
      simp only [hnode a, if_neg hne]
    · intro b hb
      simp only [hnode b, if_pos (mem_def.1 hb)]
    · intro a ha
      simp only [hnode a, if_pos (mem_def.1 ha)]
  refine ⟨hlinked, hlist, htail, hfirst, ?_, ?_, ?_, ?_, ?_⟩
  · rw [hsame.align]
    exact fun a ha => h.aligned a (hsub.subset ha)
  · rw [hsame.buf]
    exact fun a ha => h.low a (hsub.subset ha)
  · intro a ha
    rw [hold a]
    exact h.sized a (hsub.subset ha)
  · simp only [hend]
    exact h.apart.sublist hsub
  · simp only [hend, hsame.limit]
    exact fun a ha => h.high a (hsub.subset ha)

theorem Represents.at (h : Represents xm (xs ++ x :: ys)) :
    (xm.node x).prev = xs.getLastD 0 ∧ (xm.node x).next = ys.headD 0 :=
  h.linked.at

theorem Pool.resize_size (xm : Pool) (p x n a : Nat) :
    ((xm.resize p x n).node a).size = if a = x then (n : Int) else (xm.node a).size := by
  simp only [Pool.resize, update_apply]
  split <;> rfl

theorem Pool.resize_blockEnd (xm : Pool) (p x n a : Nat) :
    (xm.resize p x n).blockEnd a = if a = x then a + xm.lead + n else xm.blockEnd a := by
  rw [blockEnd, extent, resize_size]
  split <;> rfl

theorem Represents.resize (h : Represents xm (xs ++ x :: ys)) (hs : Sound xm)
    (hn : memCheckSize ≤ n) (hbehind : ∀ b ∈ ys.head?, x + xm.lead + n ≤ b)
    (hhigh : x + xm.lead + n ≤ xm.limit) (p : Nat) :
    Represents (xm.resize p x n) (xs ++ x :: ys) := by
  have hfresh : x ∉ xs ++ ys := (nodup_cons.1 (nodup_middle.1 (h.nodup hs))).1
  have hnode : ∀ a, a ≠ x → (xm.resize p x n).node a = xm.node a :=
    fun a ha => update_of_ne ha ..
  have hself : (xm.resize p x n).node x = { xm.node x with size := n } := update_self ..
  have hendOld : ∀ a, a ≠ x → (xm.resize p x n).blockEnd a = xm.blockEnd a := by
    intro a ha
    rw [Pool.resize_blockEnd, if_neg ha]
  have hendNew : (xm.resize p x n).blockEnd x = x + xm.lead + n := by
    rw [Pool.resize_blockEnd, if_pos rfl]
  have hlinks : ∀ a, ((xm.resize p x n).node a).prev = (xm.node a).prev ∧
      ((xm.resize p x n).node a).next = (xm.node a).next := by
    intro a
    by_cases ha : a = x
    · rw [ha, hself]
      exact ⟨rfl, rfl⟩
    · rw [hnode a ha]
      exact ⟨rfl, rfl⟩
  have hsplit := pairwise_append.1 h.apart
  have hright : ∀ b ∈ ys, x + xm.lead + n ≤ b := by
    refine le_of_first hs.lt_blockEnd ?_ hbehind
    exact (pairwise_cons.1 hsplit.2.1).2
  refine ⟨?_, h.list, h.tail, h.first, h.aligned, h.low, ?_, ?_, ?_⟩
  · simp only [hlinks]
    exact h.linked
  · intro a ha
    by_cases hax : a = x
    · rw [hax, hself]
      exact Int.ofNat_le.2 hn
    · rw [hnode a hax]
      exact h.sized a ha
  · have hothers : (xs ++ ys).Pairwise fun a b => xm.blockEnd a ≤ b :=
      h.apart.sublist (Sublist.append (Sublist.refl xs) (sublist_cons_self x ys))
    apply apart_insert hothers
    · intro a ha
      apply hendOld a
      rintro rfl
      exact hfresh ha
    · exact fun a ha => hsplit.2.2 a ha x mem_cons_self
    · rw [hendNew]
      exact hright
  · intro a ha
    change (xm.resize p x n).blockEnd a ≤ xm.limit
    by_cases hax : a = x
    · rw [hax, hendNew]
      exact hhigh
    · rw [hendOld a hax]
      exact h.high a ha

end SwApi.Memory
