import SwApi.Memory.Placement

/-! What the calls do to the layout. -/
namespace SwApi.Memory
open Library List

theorem Grown.account (h : Grown xm xm' nodes nodes' x n) (p : Nat) (size : Int) :
    Grown xm (xm'.account p size) nodes nodes' x n :=
  ⟨⟨h.same.buf, h.same.size, h.same.align⟩, h.represents.account p size, h.fresh, h.mem, h.new,
    h.old⟩

structure Hinted (xm xm' : Pool) (nodes : List Nat) : Prop where
  represents : Represents xm' nodes
  eq : xm' = { xm with first := xm'.first }

theorem Hinted.same (h : Hinted xm xm' nodes) : SameBuffer xm xm' := by
  rw [h.eq]
  exact ⟨rfl, rfl, rfl⟩

/-- There is room in a gap, or the end of a block behind the last one is an address. -/
def Pool.Room (xm : Pool) (nodes : List Nat) (n : Nat) : Prop :=
  xm.HasGap nodes n ∨ xm.place + xm.lead + n < 2 ^ 32

def Allocated (xm : Pool) (nodes : List Nat) (n p : Nat) (xm' : Pool) : Prop :=
  (p = 0 ∧ Hinted xm xm' nodes) ∨ ∃ x nodes', p = x + xm.lead ∧ Grown xm xm' nodes nodes' x n

theorem Represents.alloc_behind (h : Represents xm nodes) (hs : Sound xm) (hf : f = xm.first ∨
    f ∈ nodes)
    (hsize : 0 ≤ size) (hold : mallocOld xm (int32 (size + memCheckSize)) =
    some (0, { xm with first := f })) :
    swMemAlloc xm size = if xm.limit < addr ((xm.place + xm.lead : Nat) + (size + memCheckSize))
        then some (0, { xm with first := f }) else some ((xm.place + xm.lead) % 2 ^ 32,
        ({ xm with first := f }.append xm.top (int32 (size + memCheckSize))).account
          ((xm.place + xm.lead) % 2 ^ 32) (int32 (size + memCheckSize))) := by
  have huser : ({ xm with first := f } : Pool).user ({ xm with first := f } : Pool).top =
      (xm.place + xm.lead) % 2 ^ 32 := (h.setFirst hf).user_top (hs.congr ⟨rfl, rfl, rfl⟩)
  simp only [swMemAlloc, if_neg (Int.not_lt.2 hsize), hold, Option.bind_eq_bind, Option.bind_some,
    ne_eq, not_true_eq_false, if_false, huser]
  rw [addr_add_int32]
  rfl

theorem int32_marked {m : Nat} (h : m + memCheckSize < 2 ^ 31) :
    int32 ((m : Int) + memCheckSize) = (m + memCheckSize : Nat) ∧
    int32 ((m + memCheckSize : Nat) - memCheckSize : Int) = m := by
  constructor <;> rw [int32_eq] <;> push_cast <;> omega

theorem swMemAlloc_spec (hs : Sound xm) (h : Represents xm nodes)
    (hsize : size + memCheckSize < 2 ^ 31) (hroom : xm.Room nodes (size + memCheckSize)) :
    ∃ p xm', swMemAlloc xm size = some (p, xm') ∧
      Allocated xm nodes (size + memCheckSize) p xm' ∧
      (p = 0 → ¬xm.HasGap nodes (size + memCheckSize) ∧
        xm.limit < xm.place + xm.lead + (size + memCheckSize)) := by
  obtain ⟨hcheck, -⟩ := int32_marked hsize
  generalize hn : size + memCheckSize = n at *
  have hmin : memCheckSize ≤ n := by omega
  have hge := hs.lead_ge
  have hneg : ¬(size : Int) < 0 := by omega
  rcases mallocOld_spec hs h hmin with ⟨x, nodes', xm', hres, hgrown, -⟩ | ⟨f, hf, hres, hnone⟩
  · have hp : x + xm.lead ≠ 0 := by omega
    refine ⟨x + xm.lead, xm'.account (x + xm.lead) n, ?_, .inr ⟨x, nodes', rfl, hgrown.account _ _⟩,
      fun hnull => absurd hnull hp⟩
    simp only [swMemAlloc, if_neg hneg, hcheck, hres, Option.bind_eq_bind, Option.bind_some, ne_eq,
      hp, not_false_eq_true, if_true]
  · -- no gap: the place behind the last node
    have hlt : xm.place + xm.lead + n < 2 ^ 32 := hroom.resolve_left hnone
    have hunfold := h.alloc_behind hs hf (Int.natCast_nonneg size) (by rw [hcheck]; exact hres)
    rw [hcheck] at hunfold
    have hrep := h.setFirst hf
    have hsame : SameBuffer xm { xm with first := f } := ⟨rfl, rfl, rfl⟩
    have hsound := hs.congr hsame
    have htop : xm.top = xm.place := by
      rw [h.top_eq hs, Nat.mod_eq_of_lt (by omega), Pool.place]
      split <;> rfl
    have hend : addr ((xm.place + xm.lead : Nat) + ((size : Int) + memCheckSize)) =
        xm.place + xm.lead + n := addr_eq (by omega) (by omega)
    rw [htop, hend, Nat.mod_eq_of_lt (by omega)] at hunfold
    have hplace : ({ xm with first := f } : Pool).place = xm.place := rfl
    generalize hxm : ({ xm with first := f } : Pool) = xf at *
    rw [hunfold]
    by_cases hfull : xm.limit < xm.place + xm.lead + n
    · rw [if_pos hfull]
      refine ⟨0, xf, rfl, .inl ⟨rfl, hrep, ?_⟩, fun _ => ⟨hnone, ?_⟩⟩
      · rw [← hxm]
      · exact hfull
    · rw [if_neg hfull]
      have hgrown := hrep.append hsound hmin (by rw [hplace, hsame.lead, hsame.limit]; omega)
      rw [hplace] at hgrown
      have hold : ∀ a, a ≠ xm.place → ((xf.append xm.place n).node a).size = (xm.node a).size := by
        intro a ha
        rw [hgrown.old a ha, ← hxm]
      have hgrown' : Grown xm (xf.append xm.place n) nodes (nodes ++ [xm.place]) xm.place n :=
        ⟨⟨hsame.buf, hsame.size, hsame.align⟩, hgrown.represents, hgrown.fresh, hgrown.mem,
          hgrown.new, hold⟩
      exact ⟨_, _, rfl, .inr ⟨xm.place, _, rfl, hgrown'.account _ _⟩, fun hnull => by omega⟩

theorem Represents.find_eq (h : Represents xm nodes) (hs : Sound xm) (ha : a ∈ nodes) :
    xm.find (a + xm.lead) = a := by
  have hlow := h.low a ha
  have hhigh := h.end_le ha
  have hsized := h.sized a ha
  have hsize := h.size_eq ha
  have hlimit := limit_lt xm
  have hge := hs.lead_ge
  have hcheck : memCheckSize = 8 := rfl
  rw [Pool.find, if_pos (by omega)]
  exact hs.nodeOf_eq (h.aligned a ha) (by omega)

theorem Represents.list_le (h : Represents xm nodes) (hs : Sound xm) (ha : a ∈ nodes) :
    xm.list ≤ a := by
  rw [h.list]
  cases nodes with
  | nil => cases ha
  | cons b ys =>
    rcases mem_cons.1 ha with rfl | ha
    · exact le_rfl
    · exact ((pairwise_cons.1 (h.increasing hs)).1 a ha).le

theorem Represents.not_damaged (h : Represents xm (xs ++ x :: ys)) (hs : Sound xm) :
    xm.damaged (x + xm.lead) x = false := by
  have hx : x ∈ xs ++ x :: ys := by simp
  obtain ⟨hprev, hnext⟩ := h.at
  have hincreasing := pairwise_append.1 (h.increasing hs)
  have hhigh := h.end_le hx
  have hlimit := limit_lt xm
  have hend : addr ((x + xm.lead : Nat) + (xm.node x).size) = x + xm.lead + xm.extent x := by
    rw [h.size_eq hx]
    exact addr_eq (by push_cast; rfl) (by omega)
  have hsize : ¬(xm.node x).size < 0 := by
    rw [h.size_eq hx]
    omega
  have hbefore : xm.list < x →
      xm.list ≤ (xm.node x).prev ∧ (xm.node x).prev < x ∧ (xm.node (xm.node x).prev).next = x := by
    intro hlt
    rcases eq_nil_or_concat' xs with rfl | ⟨xs, a, rfl⟩
    · rw [h.list] at hlt
      exact absurd hlt (lt_irrefl x)
    · rw [getLastD_concat] at hprev
      rw [hprev]
      refine ⟨h.list_le hs (by simp), hincreasing.2.2 a (by simp) x mem_cons_self, ?_⟩
      rw [append_assoc] at h
      exact h.at.2
  have hbehind : (xm.node x).next ≠ 0 →
      x < (xm.node x).next ∧ (xm.node x).next ≤ xm.limit ∧ (xm.node (xm.node x).next).prev = x := by
    intro hne
    cases ys with
    | nil => exact absurd hnext hne
    | cons b ys =>
      replace hnext : (xm.node x).next = b := hnext
      rw [hnext]
      have hb := h.high b (by simp)
      have hless := hs.lt_blockEnd b
      refine ⟨(pairwise_cons.1 hincreasing.2.1).1 b mem_cons_self, by omega, ?_⟩
      rw [append_cons] at h
      rw [h.at.1, getLastD_concat]
  simp only [Pool.damaged, hend]
  grind

theorem unlinked_removeNode (hprev : (h x).prev = xs.getLastD 0)
    (hnext : (h x).next = ys.headD 0) (hzero : ∀ a ∈ xs ++ ys, a ≠ 0) (hx : ∀ a ∈ xs ++ ys, a ≠ x) :
    Unlinked h (removeNode h x) xs ys := by
  intro c
  rcases eq_nil_or_concat' xs with rfl | ⟨xs, a, rfl⟩
  · cases ys with
    | nil =>
      replace hprev : (h x).prev = 0 := hprev
      replace hnext : (h x).next = 0 := hnext
      simp [removeNode, hprev, hnext]
    | cons b ys =>
      replace hprev : (h x).prev = 0 := hprev
      replace hnext : (h x).next = b := hnext
      have hb : b ≠ 0 := hzero b (by simp)
      simp only [removeNode, hprev, hnext, if_pos hb, setPrev, ne_eq, not_true_eq_false, if_false]
      ext <;> grind [Function.update_apply]
  · rw [getLastD_concat] at hprev
    have ha : a ≠ 0 := hzero a (by simp)
    have hax : x ≠ a := (hx a (by simp)).symm
    cases ys with
    | nil =>
      replace hnext : (h x).next = 0 := hnext
      simp only [removeNode, hprev, hnext, if_pos ha, setNext, Function.update_of_ne hax, ne_eq,
        not_true_eq_false, if_false, getLast?_concat, Option.some.injEq]
      ext <;> grind [Function.update_apply]
    | cons b ys =>
      replace hnext : (h x).next = b := hnext
      have hb : b ≠ 0 := hzero b (by simp)
      simp only [removeNode, hprev, hnext, if_pos ha, setPrev, setNext, Function.update_of_ne hax,
        if_pos hb, getLast?_concat, getLastD_concat, head?_cons, headD_cons,
        Option.some.injEq]
      ext <;> grind [Function.update_apply]

def Pool.release (xm : Pool) (x : Nat) : Pool :=
  { xm with
    node := removeNode xm.node x
    list := if xm.list = x then (xm.node x).next else xm.list
    first := if x ≤ xm.first then (xm.node x).prev else xm.first
    tail := if xm.tail = x then (xm.node x).prev else xm.tail
    allocSize := int32 (xm.allocSize - ((xm.node x).size + nodeBytes)) }

theorem Pool.release_size (xm : Pool) (x a : Nat) :
    ((xm.release x).node a).size = (xm.node a).size := by
  simp only [Pool.release, removeNode, setNext, setPrev]
  grind [Function.update_apply]

theorem Pool.release_blockEnd (xm : Pool) (x a : Nat) :
    (xm.release x).blockEnd a = xm.blockEnd a := by
  rw [blockEnd, extent, release_size]
  rfl

theorem Represents.release (h : Represents xm (xs ++ x :: ys)) (hs : Sound xm) :
    Represents (xm.release x) (xs ++ ys) := by
  obtain ⟨hprev, hnext⟩ := h.at
  have hsub : ∀ a ∈ xs ++ ys, a ∈ xs ++ x :: ys := by
    intro a
    simp only [mem_append, mem_cons]
    tauto
  have hnodup := h.nodup hs
  have hfresh : ∀ a ∈ xs ++ ys, a ≠ x := by
    rintro a ha rfl
    rw [nodup_middle, nodup_cons] at hnodup
    exact hnodup.1 ha
  have hunlinked : Unlinked xm.node (removeNode xm.node x) xs ys :=
    unlinked_removeNode hprev hnext (fun a ha => h.ne_zero hs (hsub a ha)) hfresh
  have hlist : (if xm.list = x then (xm.node x).next else xm.list) = (xs ++ ys).headD 0 := by
    rw [h.list, hnext]
    cases xs with
    | nil => exact if_pos rfl
    | cons c xs => exact if_neg (hfresh c (by simp))
  have htail : (if xm.tail = x then (xm.node x).prev else xm.tail) = (xs ++ ys).getLastD 0 := by
    rw [h.tail, hprev]
    rcases eq_nil_or_concat' ys with rfl | ⟨ys, c, rfl⟩
    · simp
    · rw [← cons_append, ← append_assoc, ← append_assoc, getLastD_concat,
        getLastD_concat, if_neg (hfresh c (by simp))]
  have hfirst : (if x ≤ xm.first then (xm.node x).prev else xm.first) = 0 ∨
      (if x ≤ xm.first then (xm.node x).prev else xm.first) ∈ xs ++ ys := by
    split
    · rw [hprev]
      rcases eq_nil_or_concat' xs with rfl | ⟨xs, c, rfl⟩
      · exact .inl rfl
      · right
        rw [getLastD_concat]
        simp
    · rename_i hlt
      refine h.first.imp id ?_
      simp only [mem_append, mem_cons]
      rintro (hmem | heq | hmem)
      · exact .inl hmem
      · omega
      · exact .inr hmem
  exact h.remove hs ⟨rfl, rfl, rfl⟩ hunlinked hlist htail hfirst

theorem Represents.free_eq (h : Represents xm nodes) (hs : Sound xm) (hx : x ∈ nodes) :
    swMemFree xm (x + xm.lead) = xm.release x := by
  have hx0 := h.ne_zero hs hx
  have hlist0 : xm.list ≠ 0 := by
    apply h.ne_zero hs
    rw [h.list]
    cases nodes with
    | nil => cases hx
    | cons b ys => exact mem_cons_self
  obtain ⟨xs, ys, rfl⟩ := append_of_mem hx
  simp only [swMemFree, Pool.release, h.find_eq hs hx, hx0, hlist0, or_self, if_false,
    h.not_damaged hs, Bool.false_eq_true]

def Pool.bound (xm : Pool) (x : Nat) : Nat :=
  if (xm.node x).next ≠ 0 then (xm.node x).next else xm.limit

def Pool.Fits (xm : Pool) (x n : Nat) : Prop := n ≤ xm.extent x ∨ x + xm.lead + n ≤ xm.bound x

/-- The block of `x` may keep its place, or a new one is found, and the ends that are
compared are addresses. -/
def Pool.Resizable (xm : Pool) (nodes : List Nat) (x n : Nat) : Prop :=
  n ≤ xm.extent x ∨ (x + xm.lead + n < 2 ^ 32 ∧
    (x + xm.lead + n ≤ xm.bound x ∨ xm.Room nodes n))

theorem Represents.inPlace_iff (h : Represents xm nodes) (hs : Sound xm) (hx : x ∈ nodes)
    (hlt : n ≤ xm.extent x ∨ x + xm.lead + n < 2 ^ 32) : xm.inPlace x n = true ↔ xm.Fits x n := by
  have hsize : (n : Int) ≤ (xm.node x).size ↔ n ≤ xm.extent x := by
    rw [h.size_eq hx]
    omega
  simp only [Pool.inPlace, Pool.Fits, Bool.or_eq_true, decide_eq_true_eq, hsize, h.user_eq hs hx]
  rcases hlt with hle | hlt
  · simp [hle]
  · rw [addr_eq (n := x + xm.lead + n) (by push_cast; rfl) hlt]
    rfl

theorem Represents.keep (h : Represents xm (xs ++ x :: ys)) (hs : Sound xm) (hn : memCheckSize ≤ n)
    (hfits : xm.Fits x n) (p : Nat) : Represents (xm.resize p x n) (xs ++ x :: ys) := by
  rw [Pool.Fits, Pool.bound] at hfits
  have hx : x ∈ xs ++ x :: ys := by simp
  have hhigh := h.end_le hx
  have hnext := h.at.2
  cases ys with
  | nil =>
    replace hnext : (xm.node x).next = 0 := hnext
    simp only [hnext, ne_eq, not_true_eq_false, if_false] at hfits
    apply h.resize hs hn _ (by omega)
    intro b hb
    cases hb
  | cons b ys =>
    replace hnext : (xm.node x).next = b := hnext
    have hb : b ∈ xs ++ x :: b :: ys := by simp
    have hb0 : b ≠ 0 := h.ne_zero hs hb
    have hbhigh := h.high b hb
    have hless := hs.lt_blockEnd b
    have hxb : xm.blockEnd x ≤ b :=
      (pairwise_cons.1 (pairwise_append.1 h.apart).2.1).1 b mem_cons_self
    rw [Pool.blockEnd] at hxb
    simp only [hnext, if_pos hb0] at hfits
    apply h.resize hs hn _ (by omega)
    intro c hc
    cases hc
    omega

theorem Represents.setBytes (h : Represents xm nodes) (bytes : Nat → UInt8) :
    Represents { xm with bytes } nodes :=
  h.congr ⟨rfl, rfl, rfl⟩ rfl rfl rfl h.first

inductive Call where
  | alloc (size : Int)
  | realloc (p : Nat) (size : Int)
  | free (p : Nat)
deriving DecidableEq

inductive Effect (xm : Pool) (nodes : List Nat) : Call → Nat → Pool → List Nat → Prop where
  | refused {call : Call} {m : Nat} {xm' : Pool} (hcall : call = .alloc m ∨
    ∃ p, call = .realloc p m) (halloc : swMemAlloc xm m = some (0, xm')) (h : Hinted xm xm' nodes) :
      Effect xm nodes call 0 xm' nodes
  | grown {call : Call} {m x : Nat} {xm' : Pool} {nodes' : List Nat}
      (hcall : call = .alloc m ∨ call = .realloc 0 m)
      (halloc : swMemAlloc xm m = some (x + xm.lead, xm'))
      (h : Grown xm xm' nodes nodes' x (m + memCheckSize)) :
      Effect xm nodes call (x + xm.lead) xm' nodes'
  | resized {x m : Nat} (hx : x ∈ nodes) (hfits : xm.Fits x (m + memCheckSize)) :
      Effect xm nodes (.realloc (x + xm.lead) m) (x + xm.lead)
        (xm.resize (x + xm.lead) x (m + memCheckSize : Nat)) nodes
  | moved {x y m len : Nat} {xm' : Pool} {xs ys : List Nat} (hx : x ∈ nodes)
      (hlarger : xm.extent x < m + memCheckSize)
      (halloc : swMemAlloc xm m = some (y + xm.lead, xm'))
      (h : Grown xm xm' nodes (xs ++ x :: ys) y (m + memCheckSize))
      (hlow : xm.extent x ≤ len + memCheckSize) (hhigh : len ≤ m) :
      Effect xm nodes (.realloc (x + xm.lead) m) (y + xm.lead)
        ({ xm' with bytes := copyBytes xm'.bytes (y + xm.lead) (x + xm.lead) len }.release x)
          (xs ++ ys)
  | freed {x : Nat} {xs ys : List Nat} (hnodes : nodes = xs ++ x :: ys) :
      Effect xm nodes (.free (x + xm.lead)) 0 (xm.release x) (xs ++ ys)

theorem Effect.represents (h : Effect xm nodes call p xm' nodes') (hs : Sound xm)
    (hrep : Represents xm nodes) : SameBuffer xm xm' ∧ Represents xm' nodes' := by
  cases h with
  | refused _ _ h => exact ⟨h.same, h.represents⟩
  | grown _ _ h => exact ⟨h.same, h.represents⟩
  | resized hx hfits =>
    obtain ⟨xs, ys, rfl⟩ := append_of_mem hx
    exact ⟨⟨rfl, rfl, rfl⟩, hrep.keep hs (Nat.le_add_left ..) hfits _⟩
  | moved _ _ _ h =>
    have hsame := h.same
    exact ⟨⟨hsame.buf, hsame.size, hsame.align⟩,
      (h.represents.setBytes _).release (hs.congr ⟨hsame.buf, hsame.size, hsame.align⟩)⟩
  | freed hnodes =>
    subst hnodes
    exact ⟨⟨rfl, rfl, rfl⟩, hrep.release hs⟩

theorem swMemAlloc_effect (hs : Sound xm) (h : Represents xm nodes)
    (hcall : call = .alloc m ∨ call = .realloc 0 m) (hsize : m + memCheckSize < 2 ^ 31)
    (hroom : xm.Room nodes (m + memCheckSize)) :
    ∃ p xm' nodes', swMemAlloc xm m = some (p, xm') ∧ Effect xm nodes call p xm' nodes' := by
  obtain ⟨p, xm', heq, ⟨rfl, hhinted⟩ | ⟨x, nodes', rfl, hgrown⟩, -⟩ :=
    swMemAlloc_spec hs h hsize hroom
  · exact ⟨0, xm', nodes, heq, .refused (hcall.imp id fun h => ⟨0, h⟩) heq hhinted⟩
  · exact ⟨_, xm', nodes', heq, .grown hcall heq hgrown⟩

theorem swMemRealloc_effect (hs : Sound xm) (h : Represents xm nodes) (hx : x ∈ nodes)
    (hsize : m + memCheckSize < 2 ^ 31) (hroom : xm.Resizable nodes x (m + memCheckSize)) :
    ∃ q xm' nodes', swMemRealloc xm (x + xm.lead) m = some (q, xm') ∧
      Effect xm nodes (.realloc (x + xm.lead) m) q xm' nodes' := by
  have hge := hs.lead_ge
  have hp : x + xm.lead ≠ 0 := by omega
  obtain ⟨hcheck, hback⟩ := int32_marked hsize
  have hiff := h.inPlace_iff hs hx (hroom.imp id And.left)
  simp only [swMemRealloc, if_neg hp, h.find_eq hs hx, hcheck, hback]
  by_cases hkeep : xm.inPlace x (m + memCheckSize : Nat) = true
  · rw [if_pos ⟨h.ne_zero hs hx, hkeep⟩]
    exact ⟨_, _, nodes, rfl, .resized hx (hiff.1 hkeep)⟩
  · rw [if_neg fun hboth => hkeep hboth.2]
    rw [hiff, Pool.Fits, not_or] at hkeep
    have hnew : xm.Room nodes (m + memCheckSize) :=
      ((hroom.resolve_left hkeep.1).2).resolve_left hkeep.2
    obtain ⟨p, xm', hres, ⟨rfl, hhinted⟩ | ⟨y, nodes', rfl, hgrown⟩, -⟩ :=
      swMemAlloc_spec hs h hsize hnew
    · refine ⟨0, xm', nodes, ?_, .refused (.inr ⟨_, rfl⟩) hres hhinted⟩
      simp [hres]
    · have hy : y + xm.lead ≠ 0 := by omega
      obtain ⟨xs, ys, rfl⟩ := append_of_mem ((hgrown.mem x).2 (.inr hx))
      have hold : (xm'.node x).size = xm.extent x := by
        rw [hgrown.old x fun heq => hgrown.fresh (heq ▸ hx), h.size_eq hx]
      have hsized := h.sized x hx
      rw [h.size_eq hx] at hsized
      -- the old block without its mark, or what fits into the new one
      have hmove : ∃ len : Nat, xm.extent x ≤ len + memCheckSize ∧ len ≤ m ∧
          xm'.move (x + xm.lead) x (y + xm.lead) m =
            { xm' with bytes := copyBytes xm'.bytes (y + xm.lead) (x + xm.lead) len }.release
              x := by
        have hfree (bytes : Nat → UInt8) : swMemFree { xm' with bytes } (x + xm.lead) =
            { xm' with bytes }.release x := by
          rw [← hgrown.same.lead]
          exact (hgrown.represents.setBytes _).free_eq
            (hs.congr ⟨hgrown.same.buf, hgrown.same.size, hgrown.same.align⟩) (by simp)
        simp only [Pool.move, hold, hfree]
        refine ⟨_, ?_, ?_, rfl⟩ <;> split <;> omega
      obtain ⟨len, hlow, hhigh, hmove⟩ := hmove
      refine ⟨y + xm.lead, _, xs ++ ys, ?_, .moved hx (by omega) hres hgrown hlow hhigh⟩
      simp only [hres, Option.bind_eq_bind, Option.bind_some, ne_eq, hy, not_false_eq_true, if_true,
        hmove]

end SwApi.Memory
