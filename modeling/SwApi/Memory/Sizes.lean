import SwApi.Memory.Use

/-! Every `int` as a size: for which of them a call is safe in the state it finds. -/
namespace SwApi.Memory
open Library List Option

/-- NULL with the list as it was, or a block of `size` bytes and its mark inside the pool, apart
from the headers and blocks of the others. -/
def Safe (xm : Pool) (others : List Nat) (size : Int) (p : Nat) (xm' : Pool) : Prop :=
  (p = 0 ∧ xm'.node = xm.node ∧ xm'.list = xm.list ∧ xm'.tail = xm.tail) ∨
    (p ≠ 0 ∧ 0 ≤ size ∧ xm.buf ≤ p ∧ p + size + memCheckSize ≤ xm.limit ∧
      (∀ a ∈ others, p + size + memCheckSize ≤ a ∨ xm.blockEnd a ≤ p) ∧
      (xm'.node (xm.nodeOf p)).size = size + memCheckSize)

/-- NULL with another list, or a block that is not inside the pool. -/
def Outside (xm : Pool) (size : Int) (p : Nat) (xm' : Pool) : Prop :=
  (p = 0 ∧ xm'.tail ≠ xm.tail) ∨ (p ≠ 0 ∧ ¬(xm.buf ≤ p ∧ p + size + memCheckSize ≤ xm.limit))

theorem Outside.not_safe (h : Outside xm size p xm') (others : List Nat) :
    ¬Safe xm others size p xm' := by
  rintro (⟨hp, -, -, htail⟩ | ⟨hp, -, hlow, hhigh, -⟩)
  · exact h.elim (fun h => h.2 htail) fun h => h.1 hp
  · exact h.elim (fun h => hp h.1) fun h => h.2 ⟨hlow, hhigh⟩

/-- The search looks at a gap at all: a size that has become negative is found to fit. -/
def Pool.Searches (xm : Pool) : Prop :=
  if xm.first = 0 then xm.list ≠ 0 else (xm.node xm.first).next ≠ 0

/-- A negative size, one whose sums stay inside the ints and the addresses, or one for which no
gap is taken and the end behind the last block comes around to behind the pool. -/
def Pool.Allocates (xm : Pool) (nodes : List Nat) (size : Int) : Prop :=
  size < 0 ∨ (size + memCheckSize < 2 ^ 31 ∧ xm.Room nodes (size.toNat + memCheckSize)) ∨
    ((2 ^ 31 ≤ size + memCheckSize → ¬xm.Searches) ∧
      xm.limit < addr ((xm.place + xm.lead : Nat) + (size + memCheckSize)))

theorem Sound.lead_add (h : Sound xm) : xm.lead + xm.align ≤ 2 ^ 31 := by
  have hless : xm.lead < 20 + xm.align := roundUp_lt h.align_pos
  obtain ⟨k, hk, hpow⟩ := h.power
  by_cases hlast : k = 30
  · rw [Pool.lead, hpow, hlast]
    decide
  · have hle : 2 ^ k ≤ 2 ^ 29 := Nat.pow_le_pow_right (by decide) (by omega)
    omega

section
variable (h : Represents xm nodes) (hs : Sound xm)
include h hs

theorem Represents.place_le (hlist : xm.list ≠ 0) :
    0 < xm.tail ∧ xm.tail < xm.place ∧ xm.place ≤ 2 ^ 32 ∧ xm.place < xm.limit + xm.align := by
  obtain ⟨-, hnil⟩ | ⟨xs, a, rfl, -, htail⟩ := h.ends hs
  · exact absurd hnil hlist
  · have ha : a ∈ xs ++ [a] := by simp
    have hhigh := h.high a ha
    have hlimit := limit_lt xm
    have hless := hs.lt_blockEnd a
    have hend := hs.blockEnd_le (a := a)
    have hround := roundUp_lt (x := xm.extent a) hs.align_pos
    have hdvd : xm.align ∣ 2 ^ 32 := by
      obtain ⟨k, hk, hpow⟩ := hs.power
      rw [hpow]
      exact Nat.pow_dvd_pow 2 (by omega)
    have hle := hs.nextPlace_le (h.aligned a ha) hdvd (by omega)
    rw [Pool.place, if_neg hlist, htail]
    refine ⟨Nat.pos_of_ne_zero (h.ne_zero hs ha), by omega, hle, ?_⟩
    rw [Pool.blockEnd] at hhigh
    rw [Pool.nextPlace]
    omega

theorem Represents.append_outside
    (hlarge : 2 ^ 31 ≤ size + memCheckSize ∨ 2 ^ 32 ≤ (xm.place + xm.lead : Nat) +
    (size + memCheckSize)) (n : Int) : Outside xm size ((xm.place + xm.lead) % 2 ^ 32)
      (({ xm with first := f }.append xm.top n).account ((xm.place + xm.lead) % 2 ^ 32) n) := by
  have hnear := hs.limit_near
  have hlimit := limit_lt xm
  have hstart := hs.start
  by_cases hp : (xm.place + xm.lead) % 2 ^ 32 = 0
  · refine .inl ⟨hp, ?_⟩
    change xm.top ≠ xm.tail
    rw [h.top_eq hs]
    by_cases hlist : xm.list = 0
    · obtain ⟨rfl, -⟩ | ⟨xs, a, -, hne, -⟩ := h.ends hs
      · rw [if_pos hlist, h.tail]
        exact hs.start.ne'
      · exact absurd hlist hne
    · have hplace := h.place_le hs hlist
      rw [if_neg hlist]
      omega
  · refine .inr ⟨hp, ?_⟩
    rintro ⟨hlow, hhigh⟩
    have hlead := hs.lead_add
    by_cases hlist : xm.list = 0
    · have hplace : xm.place = xm.buf := if_pos hlist
      omega
    · have hplace := h.place_le hs hlist
      omega

theorem Represents.mallocOld_negative {n : Int}
    (hneg : n < -2 ^ 31 + 8) : (xm.Searches → ∃ p xm', mallocOld xm n = some (p, xm') ∧ p ≠ 0) ∧
      (¬xm.Searches → mallocOld xm n = some (0, xm)) := by
  have hge := hs.lead_ge
  have hlead : n < -(xm.lead : Int) := by
    have hless : xm.lead < 20 + xm.align := roundUp_lt hs.align_pos
    have hadd := hs.lead_add
    omega
  have hlimit := limit_lt xm
  rw [Pool.Searches]
  by_cases hfirst : xm.first = 0
  · rw [if_pos hfirst, not_not]
    refine ⟨fun hlist => ?_, fun hlist => by rw [mallocOld, if_pos hfirst, if_pos hlist]⟩
    have hb : xm.list ∈ nodes := by
      rw [h.list] at hlist ⊢
      cases nodes with
      | nil => exact absurd rfl hlist
      | cons b ys => exact mem_cons_self
    have hlow := h.low _ hb
    have hle : n ≤ xm.list - (xm.buf + xm.lead : Nat) := by omega
    have hhigh := h.end_le hb
    have hnear := hs.limit_near
    have huser : xm.user xm.buf = xm.buf + xm.lead := hs.user_eq hs.aligned (by omega)
    have hlen : int32 (addr (xm.list - (xm.buf + xm.lead : Nat))) =
      xm.list - (xm.buf + xm.lead : Nat) :=
      int32_addr (by omega) (by omega)
    rw [mallocOld, if_pos hfirst, if_neg hlist, huser, hlen]
    dsimp only
    rw [if_pos hle]
    exact ⟨_, _, rfl, by omega⟩
  · obtain ⟨xs, ys, rfl⟩ := append_of_mem (h.first.resolve_left hfirst)
    have hnext := h.at.2
    rw [if_neg hfirst, not_not, mallocOld, if_neg hfirst, mallocLoop]
    refine ⟨fun hne => ?_, fun hzero => if_pos hzero⟩
    cases ys with
    | nil => exact absurd hnext hne
    | cons b ys =>
      obtain ⟨hstop, huser, hlen, hle⟩ := h.gap hs
      replace hnext : (xm.node xm.first).next = b := hnext
      rw [hnext] at hne ⊢
      dsimp only
      rw [if_neg hne, hstop, huser, hlen, if_pos (by omega)]
      exact ⟨_, _, rfl, by split <;> exact (huser.trans_ne (by omega))⟩

end

theorem Grown.safe {m : Nat} (h : Grown xm xm' nodes nodes' x (m + memCheckSize)) (hs : Sound xm) :
    Safe xm nodes m (x + xm.lead) xm' := by
  obtain ⟨hhigh, -⟩ := h.small hs
  have hx := (h.mem x).2 (.inl rfl)
  have hlow := h.represents.low x hx
  have haligned := h.represents.aligned x hx
  have hge := hs.lead_ge
  have hlimit := limit_lt xm
  rw [h.same.buf] at hlow
  rw [h.same.align] at haligned
  refine .inr ⟨by omega, Int.natCast_nonneg m, by omega, by omega, fun a ha => ?_, ?_⟩
  · have := h.apart ha
    omega
  · rw [hs.nodeOf_eq haligned (by omega), h.new]
    rfl

theorem swMemAlloc_outcome (h : Holds s nodes) (hint : size < 2 ^ 31) :
    ∃ p xm', swMemAlloc s.pool size = some (p, xm') ∧
      ((s.pool.Allocates nodes size ∧ Safe s.pool nodes size p xm') ∨
        (¬s.pool.Allocates nodes size ∧ Outside s.pool size p xm')) := by
  have hs := h.sound
  have hrep := h.represents
  have hcheck : memCheckSize = 8 := rfl
  by_cases hneg : size < 0
  · exact ⟨0, s.pool, if_pos hneg, .inl ⟨.inl hneg, .inl ⟨rfl, rfl, rfl, rfl⟩⟩⟩
  · obtain ⟨m, rfl⟩ := Int.eq_ofNat_of_zero_le (Int.not_lt.1 hneg)
    by_cases hroom : (m : Int) + memCheckSize < 2 ^ 31 ∧ s.pool.Room nodes (m + memCheckSize)
    · obtain ⟨p, xm', heq, hres, -⟩ := swMemAlloc_spec hs hrep (by omega) hroom.2
      refine ⟨p, xm', heq, .inl ⟨.inr (.inl hroom), ?_⟩⟩
      rcases hres with ⟨rfl, hhinted⟩ | ⟨x, nodes', rfl, hgrown⟩
      · left
        rw [hhinted.eq]
        exact ⟨rfl, rfl, rfl, rfl⟩
      · exact hgrown.safe hs
    -- behind the last block the end is compared as it has come around
    have hbehind : ∀ f, (f = s.pool.first ∨ f ∈ nodes) →
        mallocOld s.pool (int32 (m + memCheckSize)) = some (0, { s.pool with first := f }) →
        (2 ^ 31 ≤ (m : Int) + memCheckSize → ¬s.pool.Searches) →
        ∃ p xm', swMemAlloc s.pool m = some (p, xm') ∧
          ((s.pool.Allocates nodes m ∧ Safe s.pool nodes m p xm') ∨
            (¬s.pool.Allocates nodes m ∧ Outside s.pool m p xm')) := by
      intro f hf hold hsearch
      rw [hrep.alloc_behind hs hf (Int.natCast_nonneg m) hold]
      by_cases hend :
        s.pool.limit < addr ((s.pool.place + s.pool.lead : Nat) + ((m : Int) + memCheckSize))
      · rw [if_pos hend]
        exact ⟨0, _, rfl, .inl ⟨.inr (.inr ⟨hsearch, hend⟩), .inl ⟨rfl, rfl, rfl, rfl⟩⟩⟩
      · rw [if_neg hend]
        refine ⟨_, _, rfl, .inr ⟨?_, hrep.append_outside hs ?_ _⟩⟩
        · rintro (hm | hboth | ⟨-, hlt⟩)
          · omega
          · exact hroom hboth
          · exact hend hlt
        · by_contra hsmall
          rw [not_or] at hsmall
          exact hroom ⟨by omega, .inr (by omega)⟩
    by_cases hfit : (m : Int) + memCheckSize < 2 ^ 31
    · rcases mallocOld_spec hs hrep (n := m + memCheckSize) (by omega) with
        ⟨x, nodes', xm', -, -, hgap⟩ | ⟨f, hf, hold, -⟩
      · exact absurd ⟨hfit, .inl hgap⟩ hroom
      · refine hbehind f hf ?_ (by omega)
        rw [int32_eq (by omega) (by omega)]
        exact hold
    · -- the sum has become negative
      have hwrap : int32 ((m : Int) + memCheckSize) < -2 ^ 31 + 8 := by
        rw [int32, Int.bmod_def]
        omega
      obtain ⟨hfound, hnone⟩ := hrep.mallocOld_negative hs hwrap
      by_cases hsearch : s.pool.Searches
      · obtain ⟨p, xm₁, hold, hp⟩ := hfound hsearch
        have hnear := hs.limit_near
        refine ⟨p, xm₁.account p (int32 (m + memCheckSize)), ?_, .inr ⟨?_, .inr ⟨hp, by omega⟩⟩⟩
        · simp only [swMemAlloc, if_neg hneg, hold, bind_eq_bind, bind_some, ne_eq, hp,
            not_false_eq_true, if_true]
        · rintro (hm | hboth | ⟨hfree, -⟩)
          · exact hneg hm
          · exact hroom hboth
          · exact hfree (by omega) hsearch
      · exact hbehind _ (.inl rfl) (hnone hsearch) fun _ => hsearch

/-- A size that is not negative and fits an `int` with its mark, for which the block of `x` is
large enough, has the room behind it, or is found to have none and allocates safely. -/
def Pool.Reallocates (xm : Pool) (nodes : List Nat) (x : Nat) (size : Int) : Prop :=
  0 ≤ size ∧ size + memCheckSize < 2 ^ 31 ∧
    (xm.Fits x (size.toNat + memCheckSize) ∨
      (xm.bound x < addr (x + xm.lead + (size + memCheckSize)) ∧ xm.Allocates nodes size))

theorem swMemFree_size : ((swMemFree xm p).node a).size = (xm.node a).size := by
  rw [swMemFree]
  dsimp only
  split
  · rfl
  · split
    · rfl
    · exact xm.release_size (xm.find p) a

theorem swMemRealloc_safe_iff (h : Holds s nodes) (hx : x ∈ nodes) (hlow : -2 ^ 31 ≤ size)
    (hint : size < 2 ^ 31) : (∃ q xm', swMemRealloc s.pool (x + s.pool.lead) size = some (q, xm') ∧
      Safe s.pool (nodes.filter (· ≠ x)) size q xm') ↔ s.pool.Reallocates nodes x size := by
  have hs := h.sound
  have hrep := h.represents
  have hge := hs.lead_ge
  have hcheck : memCheckSize = 8 := rfl
  have hp : x + s.pool.lead ≠ 0 := by omega
  have hx0 := hrep.ne_zero hs hx
  have hnear := hs.limit_near
  have hxlow := hrep.low x hx
  have hsized := hrep.sized x hx
  simp only [swMemRealloc, if_neg hp, hrep.find_eq hs hx]
  by_cases hfit : 0 ≤ size ∧ size + memCheckSize < 2 ^ 31
  · obtain ⟨m, rfl⟩ := Int.eq_ofNat_of_zero_le hfit.1
    obtain ⟨hadd, hback⟩ := int32_marked (m := m) (by omega)
    have hlimit := limit_lt s.pool
    have hbound : s.pool.bound x ≤ s.pool.limit := by
      obtain ⟨xs, ys, rfl⟩ := append_of_mem hx
      rw [Pool.bound]
      split
      · rename_i hne
        cases ys with
        | nil => exact absurd hrep.at.2 hne
        | cons b ys =>
          have hb := hrep.high b (by simp)
          have hless := hs.lt_blockEnd b
          rw [hrep.at.2]
          exact (hless.trans_le hb).le
      · exact le_rfl
    have hinPlace : s.pool.inPlace x (m + memCheckSize : Nat) = true ↔
      m + memCheckSize ≤ s.pool.extent x ∨
        addr (x + s.pool.lead + ((m : Int) + memCheckSize)) ≤ s.pool.bound x := by
      have hsize : ((m + memCheckSize : Nat) : Int) ≤ (s.pool.node x).size ↔
          m + memCheckSize ≤ s.pool.extent x := by
        rw [hrep.size_eq hx]
        omega
      simp only [Pool.inPlace, Bool.or_eq_true, decide_eq_true_eq, hsize, hrep.user_eq hs hx]
      push_cast
      rfl
    have haddr : x + s.pool.lead + (m + memCheckSize) < 2 ^ 32 →
        addr (x + s.pool.lead + ((m : Int) + memCheckSize)) =
          x + s.pool.lead + (m + memCheckSize) :=
      fun hlt => addr_eq (by push_cast; rfl) hlt
    have hiff : s.pool.Fits x (m + memCheckSize) ↔ m + memCheckSize ≤ s.pool.extent x ∨
      x + s.pool.lead + (m + memCheckSize) ≤ s.pool.bound x := Iff.rfl
    rw [hadd, hback, Pool.Reallocates, Int.toNat_natCast]
    by_cases hkeep : s.pool.inPlace x (m + memCheckSize : Nat) = true
    · rw [if_pos ⟨hx0, hkeep⟩]
      by_cases hfits : s.pool.Fits x (m + memCheckSize)
      · refine iff_of_true ⟨_, _, rfl, .inr ⟨hp, hfit.1, by omega, ?_⟩⟩ ⟨hfit.1, hfit.2, .inl hfits⟩
        have hkept : Represents (s.pool.resize (x + s.pool.lead) x (m + memCheckSize : Nat))
          nodes := by
          obtain ⟨xs, ys, rfl⟩ := append_of_mem hx
          exact hrep.keep hs (by omega) hfits _
        have hend := hkept.high x hx
        rw [Pool.resize_blockEnd, if_pos rfl] at hend
        change _ ≤ s.pool.limit at hend
        refine ⟨by omega, fun a ha => ?_, ?_⟩
        · rw [mem_filter, decide_eq_true_eq] at ha
          have hapart := hkept.disjoint ha.1 hx ha.2
          rw [Pool.resize_blockEnd, Pool.resize_blockEnd, if_neg ha.2, if_pos rfl] at hapart
          omega
        · rw [h.nodeOf_eq hx, Pool.resize_size, if_pos rfl]
          push_cast
          rfl
      · -- the end has come around to before the bound
        rw [hiff] at hfits
        rw [hinPlace] at hkeep
        refine iff_of_false ?_ ?_
        · rintro ⟨q, xm', heq, hsafe⟩
          cases heq
          rcases hsafe with ⟨hq, -⟩ | ⟨-, -, -, hhigh, -⟩
          · exact hp hq
          · omega
        · rintro ⟨-, -, hroom | ⟨hlt, -⟩⟩
          · exact hfits hroom
          · omega
    · rw [if_neg fun hboth => hkeep hboth.2]
      rw [hinPlace, not_or] at hkeep
      obtain ⟨p, xm₁, heq, hout⟩ := swMemAlloc_outcome h hint
      simp only [heq, bind_eq_bind, bind_some]
      rcases hout with ⟨hallocates, hsafe⟩ | ⟨hnot, hout⟩
      · refine iff_of_true ⟨_, _, rfl, ?_⟩ ⟨hfit.1, hfit.2, .inr ⟨by omega, hallocates⟩⟩
        rcases hsafe with ⟨rfl, hsame⟩ | ⟨hne, hpos, hbuf, hhigh, hapart, hsize⟩
        · exact .inl ⟨rfl, hsame⟩
        · refine .inr ⟨hne, hpos, hbuf, hhigh, fun a ha => hapart a (mem_filter.1 ha).1, ?_⟩
          rw [if_pos hne, Pool.move, swMemFree_size]
          exact hsize
      · refine iff_of_false ?_ ?_
        · rintro ⟨q, xm', hq, hsafe⟩
          cases hq
          by_cases hne : p = 0
          · rw [if_neg (not_not.2 hne)] at hsafe
            exact hout.not_safe _ hsafe
          · exact Outside.not_safe (.inr (hout.resolve_left fun hnull => hne hnull.1)) _ hsafe
        · rintro ⟨-, -, hroom | ⟨-, hallocates⟩⟩
          · rw [hiff] at hroom
            omega
          · exact hnot hallocates
  · -- negative or become negative: the block keeps its place
    have hwrap : int32 (size + memCheckSize) ≤ (s.pool.node x).size := by
      rw [int32, Int.bmod_def]
      omega
    have hkeep : s.pool.inPlace x (int32 (size + memCheckSize)) = true := by
      simp [Pool.inPlace, hwrap]
    rw [if_pos ⟨hx0, hkeep⟩]
    constructor
    · rintro ⟨q, xm', heq, hsafe⟩
      cases heq
      rcases hsafe with ⟨hq, -⟩ | ⟨-, hsize, hbuf, hhigh, -⟩
      · exact absurd hq hp
      · exfalso
        omega
    · rintro ⟨hsize, hmark, -⟩
      exact absurd ⟨hsize, hmark⟩ hfit

/-- In every state of the layout and for every `int`, an allocation and the reallocation of a live
block are safe exactly when the size meets the condition. -/
theorem safe_size_iff {nodes : List Nat} {s : State} {size : Int} (h : Holds s nodes)
    (hlow : -2 ^ 31 ≤ size) (hint : size < 2 ^ 31) :
    ((∃ p xm', swMemAlloc s.pool size = some (p, xm') ∧ Safe s.pool nodes size p xm') ↔
      s.pool.Allocates nodes size) ∧ ∀ p ∈ s.live,
      ((∃ q xm', swMemRealloc s.pool p size = some (q, xm') ∧
      Safe s.pool (nodes.filter (· ≠ s.pool.nodeOf p)) size q xm') ↔
      s.pool.Reallocates nodes (s.pool.nodeOf p) size) := by
  constructor
  · obtain ⟨p, xm', heq, hout⟩ := swMemAlloc_outcome h hint
    rw [heq]
    rcases hout with ⟨hallocates, hsafe⟩ | ⟨hnot, hout⟩
    · exact iff_of_true ⟨p, xm', rfl, hsafe⟩ hallocates
    · refine iff_of_false ?_ hnot
      rintro ⟨q, xm'', hq, hsafe⟩
      cases hq
      exact hout.not_safe _ hsafe
  · intro p hp
    obtain ⟨x, hx, rfl⟩ := (h.live p).1 hp
    rw [h.nodeOf_eq hx]
    exact swMemRealloc_safe_iff h hx hlow hint

/-- A second block of 100 bytes, and the first one grown to 100. -/
theorem safe_size_iff_hundred : ∃ s nodes, Holds s nodes ∧ 0x1038 ∈ s.live ∧
    (∃ p xm', swMemAlloc s.pool 100 = some (p, xm') ∧ Safe s.pool nodes 100 p xm') ∧
    ∃ q xm', swMemRealloc s.pool 0x1038 100 = some (q, xm') ∧
      Safe s.pool (nodes.filter (· ≠ s.pool.nodeOf 0x1038)) 100 q xm' := by
  obtain ⟨xm, history, s, hxm, he, hlive, hplace, hfits⟩ := exists_use Proper 0x1000 0x400 2
    [.call (.alloc 16)] (fun _ s => 0x1038 ∈ s.live ∧ s.pool.place + s.pool.lead + 108 < 2 ^ 32 ∧
      s.pool.nodeOf 0x1038 + s.pool.lead + 108 ≤ s.pool.bound (s.pool.nodeOf 0x1038)) (by decide)
    (by decide +kernel)
  obtain ⟨nodes, h, -⟩ := hxm.invariant (fun _ _ _ => True) trivial (fun _ _ => id)
    (fun _ _ _ _ _ => trivial) (fun _ _ => trivial) (fun _ _ _ => trivial) (.of_exec he)
  have hlow : -2 ^ 31 ≤ (100 : Int) := by decide
  obtain ⟨halloc, hrealloc⟩ := safe_size_iff h hlow (by decide)
  exact ⟨s, nodes, h, hlive, halloc.2 (.inr (.inl ⟨by decide, .inr hplace⟩)),
    (hrealloc _ hlive).2 ⟨by decide, by decide, .inl (.inr hfits)⟩⟩

/-- A size of -1 leaves a live block with seven bytes for itself and its mark. -/
theorem negative_realloc_keeps_block : ∃ xm history s, Initial xm ∧
    exec useStep Proper ⟨xm, []⟩ [.call (.alloc 16)] = some (history, s) ∧ 0x1038 ∈ s.live ∧
    ∃ r ∈ swMemRealloc s.pool 0x1038 (-1), r.1 = 0x1038 ∧
    (r.2.node (s.pool.nodeOf 0x1038)).size = 7 :=
  exists_use _ 0x1000 0x400 2 _ _ (by decide) (by decide +kernel)

end SwApi.Memory
