import SwApi.Memory.Use

/-! The hint of `malloc_old`: no room of any use lies before it. -/
namespace SwApi.Memory
open Library List

variable {xm : Pool} {n : Nat}

structure FreeAt (xm : Pool) (nodes : List Nat) (x n : Nat) : Prop where
  aligned : xm.align ∣ x
  low : xm.buf ≤ x
  high : x + xm.lead + n ≤ xm.limit
  apart : ∀ a ∈ nodes, x + xm.lead + n ≤ a ∨ xm.blockEnd a ≤ x

instance (xm : Pool) (nodes : List Nat) (x n : Nat) : Decidable (FreeAt xm nodes x n) :=
  decidable_of_iff (xm.align ∣ x ∧ xm.buf ≤ x ∧ x + xm.lead + n ≤ xm.limit ∧
      ∀ a ∈ nodes, x + xm.lead + n ≤ a ∨ xm.blockEnd a ≤ x)
    ⟨fun h => ⟨h.1, h.2.1, h.2.2.1, h.2.2.2⟩, fun h => ⟨h.aligned, h.low, h.high, h.apart⟩⟩

/-- What is free before `f` is too small for a header and more than the length that
`malloc_old` passes over. -/
def SmallBefore (xm : Pool) (nodes : List Nat) (f : Nat) : Prop :=
  ∀ x n, x < f → FreeAt xm nodes x n → n < xm.align + memCheckSize

theorem FreeAt.le_of_lt (h : FreeAt xm nodes x n) (hs : Sound xm) (ha : a ∈ nodes) (hlt : x < a) :
    x + xm.lead + n ≤ a := by
  have hless := hs.lt_blockEnd a
  have hapart := h.apart a ha
  omega

theorem FreeAt.mono (h : FreeAt xm' nodes' x n) (hsame : SameBuffer xm xm')
    (hblocks : ∀ a ∈ nodes, x + xm.lead + n ≤ a ∨ a ∈ nodes' ∧ xm.blockEnd a ≤ xm'.blockEnd a) :
    FreeAt xm nodes x n := by
  obtain ⟨haligned, hlow, hhigh, hapart⟩ := h
  rw [hsame.align] at haligned
  rw [hsame.buf] at hlow
  rw [hsame.lead, hsame.limit] at hhigh
  refine ⟨haligned, hlow, hhigh, ?_⟩
  intro a ha
  rcases hblocks a ha with hle | ⟨hmem, hend⟩
  · exact .inl hle
  · have := hapart a hmem
    rw [hsame.lead] at this
    omega

theorem SmallBefore.pass (hs : Sound xm) (h : Represents xm (xs ++ a :: b :: ys))
    (hbefore : SmallBefore xm (xs ++ a :: b :: ys) a)
    (hgap : b < xm.nextPlace a + xm.lead + (xm.align + memCheckSize)) :
    SmallBefore xm (xs ++ a :: b :: ys) b := by
  intro x n hx hfree
  have hge := hs.lead_ge
  have hb := hfree.le_of_lt hs (a := b) (by simp) hx
  rcases hfree.apart a (by simp) with hle | hle
  · exact hbefore x n (by omega) hfree
  · have hnext := hs.nextPlace_le (h.aligned a (by simp)) hfree.aligned hle
    omega

theorem mallocLoop_hint {firstlen : Int} (hs : Sound xm) (h : Represents xm (xs ++ a :: ys))
    (hf : f = xm.first ∨ f ∈ xs ++ a :: ys) (hfirst : SmallBefore xm (xs ++ a :: ys) f)
    (hlen : firstlen ≤ (xm.align - 1 : Nat) + 8 → SmallBefore xm (xs ++ a :: ys) a)
    (hres : mallocLoop n fuel { xm with first := f } a firstlen = some (p, xm')) :
    SmallBefore xm (xs ++ a :: ys) xm'.first := by
  induction ys generalizing xs a fuel f firstlen with
  | nil =>
    cases fuel with
    | zero => cases hres
    | succ fuel =>
      have hnext : (xm.node a).next = 0 := h.at.2
      simp only [mallocLoop, hnext, if_true] at hres
      cases hres
      exact hfirst
  | cons b ys ih =>
    cases fuel with
    | zero => cases hres
    | succ fuel =>
      generalize hg : (if firstlen ≤ (xm.align - 1 : Nat) + 8 then a else f) = g
      have hgmem : g = xm.first ∨ g ∈ xs ++ a :: b :: ys := by
        rw [← hg]
        split
        · right
          simp
        · exact hf
      have hgsmall : SmallBefore xm (xs ++ a :: b :: ys) g := by
        rw [← hg]
        split
        · exact hlen ‹_›
        · exact hfirst
      rw [(h.setFirst hf).mallocLoop_round (hs.congr ⟨rfl, rfl, rfl⟩) fuel hg] at hres
      split at hres
      · cases hres
        exact hgsmall
      · rw [append_cons] at h hgmem hgsmall ⊢
        refine ih h hgmem hgsmall ?_ hres
        -- the next node is passed on to only over a small gap
        intro hsmall
        rw [← append_cons] at h ⊢
        have hpos := hs.align_pos
        have hcheck : memCheckSize = 8 := rfl
        split at hsmall
        · rename_i hle
          apply SmallBefore.pass hs h (hlen hle)
          change (b : Int) - (xm.nextPlace a + xm.lead : Nat) ≤ _ at hsmall
          omega
        · rename_i hlarge
          exact absurd hsmall hlarge

theorem mallocOld_hint (hs : Sound xm) (h : Represents xm nodes)
    (hfirst : SmallBefore xm nodes xm.first)
    (hres : mallocOld xm n = some (p, xm')) : SmallBefore xm nodes xm'.first := by
  have hpos := hs.align_pos
  have hcheck : memCheckSize = 8 := rfl
  by_cases hzero : xm.first = 0
  · cases nodes with
    | nil =>
      have hlist : xm.list = 0 := h.list
      rw [mallocOld, if_pos hzero, if_pos hlist] at hres
      cases hres
      exact hfirst
    | cons b ys =>
      rw [h.mallocOld_eq hs hzero] at hres
      split at hres
      · cases hres
        intro x n hx hfree
        exact absurd hfree.low (Nat.not_le.2 hx)
      · have hsplit : Represents xm ([] ++ b :: ys) := h
        refine mallocLoop_hint hs hsplit (.inl rfl) hfirst ?_ hres
        intro hsmall x n hx hfree
        have hlow := hfree.low
        have hle := hfree.le_of_lt hs mem_cons_self hx
        omega
  · obtain ⟨xs, ys, rfl⟩ := append_of_mem (h.first.resolve_left hzero)
    rw [mallocOld, if_neg hzero] at hres
    exact mallocLoop_hint hs h (.inl rfl) hfirst (fun _ => hfirst) hres

theorem swMemAlloc_hint {m : Nat} (hs : Sound xm) (h : Represents xm nodes)
    (hint : m + memCheckSize < 2 ^ 31) (hfirst : SmallBefore xm nodes xm.first)
    (hres : swMemAlloc xm m = some (p, xm')) : SmallBefore xm nodes xm'.first := by
  have hneg : ¬(m : Int) < 0 := by omega
  obtain ⟨hcheck, -⟩ := int32_marked hint
  rw [swMemAlloc, if_neg hneg, hcheck] at hres
  obtain ⟨⟨q, xm₁⟩, hold, hres⟩ := Option.bind_eq_some_iff.1 hres
  have hhint := mallocOld_hint hs h hfirst hold
  dsimp only at hres
  split at hres
  · cases hres
    exact hhint
  · split at hres
    · cases hres
      exact hhint
    · cases hres
      exact hhint

theorem Grown.smallBefore (h : Grown xm xm' nodes nodes' x n) (hsmall : SmallBefore xm nodes f) :
    SmallBefore xm' nodes' f := by
  intro y k hy hfree
  rw [h.same.align]
  refine hsmall y k hy (hfree.mono h.same fun a ha => .inr ⟨(h.mem a).2 (.inr ha), ?_⟩)
  rw [h.same.blockEnd (h.old a fun heq => h.fresh (heq ▸ ha))]

theorem Represents.release_small (h : Represents xm (xs ++ x :: ys)) (hs : Sound xm)
    (hsmall : SmallBefore xm (xs ++ x :: ys) xm.first) :
    SmallBefore (xm.release x) (xs ++ ys) (xm.release x).first := by
  have hincreasing := pairwise_append.1 (h.increasing hs)
  have hsound : Sound (xm.release x) := hs.congr ⟨rfl, rfl, rfl⟩
  -- the new hint is a node before the freed one and not behind the old hint
  have hhint : (xm.release x).first = 0 ∨
      (xm.release x).first ∈ xs ++ ys ∧ (xm.release x).first < x ∧
        (xm.release x).first ≤ xm.first := by
    have hnew : (xm.release x).first = if x ≤ xm.first then (xm.node x).prev else xm.first := rfl
    rw [hnew, h.at.1]
    split
    · rename_i hle
      rcases eq_nil_or_concat' xs with rfl | ⟨zs, c, rfl⟩
      · exact .inl rfl
      · have hlt := hincreasing.2.2 c (by simp) x mem_cons_self
        rw [getLastD_concat]
        exact .inr ⟨by simp, hlt, by omega⟩
    · rename_i hlt
      refine h.first.imp id fun hmem => ⟨?_, by omega, le_rfl⟩
      rw [mem_append, mem_cons] at hmem
      rw [mem_append]
      rcases hmem with hmem | rfl | hmem
      · exact .inl hmem
      · omega
      · exact .inr hmem
  intro y n hy hfree
  rcases hhint with hzero | ⟨hmem, hlt, hle⟩
  · omega
  · have hend := hfree.le_of_lt hsound hmem hy
    change y + xm.lead + n ≤ _ at hend
    refine hsmall y n (by omega) (hfree.mono ⟨rfl, rfl, rfl⟩ fun a ha => ?_)
    rw [mem_append, mem_cons] at ha
    by_cases hax : a = x
    · exact .inl (by omega)
    · exact .inr ⟨by grind, (xm.release_blockEnd x a).ge⟩

def KeepsSmall (s : State) : Use → Prop
  | .call (.realloc p size) => p ≠ 0 → s.pool.nodeOf p < s.pool.first →
      size + memCheckSize ≤ s.pool.extent (s.pool.nodeOf p) →
      s.nextOf p < p + roundUp s.pool.align (size.toNat + memCheckSize) + s.pool.lead +
        (s.pool.align + memCheckSize)
  | _ => True

instance (s : State) (u : Use) : Decidable (KeepsSmall s u) := by
  rcases u with (_ | _ | _) | _ | _ <;> unfold KeepsSmall <;> infer_instance

theorem Effect.small (he : Effect s.pool nodes call p xm' nodes') (h : Holds s nodes)
    (hvalid : Valid s call) (hguard : KeepsSmall s (.call call))
    (hsmall : SmallBefore s.pool nodes s.pool.first) : SmallBefore xm' nodes' xm'.first := by
  have hge := h.sound.lead_ge
  cases he with
  | @refused _ m _ hcall halloc hhinted =>
    have hint : m + memCheckSize < 2 ^ 31 := by
      rcases hcall with rfl | ⟨p, rfl⟩
      · have := hvalid.2
        omega
      · have := hvalid.2.2
        omega
    have hmoved := swMemAlloc_hint h.sound h.represents hint hsmall halloc
    intro y k hy hfree
    rw [hhinted.same.align]
    refine hmoved y k hy (hfree.mono hhinted.same fun a ha => .inr ⟨ha, ?_⟩)
    rw [hhinted.same.blockEnd (by rw [hhinted.eq])]
  | grown _ halloc hgrown =>
    exact hgrown.smallBefore
      (swMemAlloc_hint h.sound h.represents (hgrown.small h.sound).2 hsmall halloc)
  | @resized x m hx hfits =>
    intro y k hy hfree
    have hold : y + s.pool.lead + k ≤ x ∨ s.pool.blockEnd x ≤ y →
      k < s.pool.align + memCheckSize := by
      intro hself
      refine hsmall y k hy ⟨hfree.aligned, hfree.low, hfree.high, fun a ha => ?_⟩
      by_cases hax : a = x
      · rw [hax]
        exact hself
      · have hother := hfree.apart a ha
        rwa [Pool.resize_blockEnd, if_neg hax] at hother
    have hself := hfree.apart x hx
    rw [Pool.resize_blockEnd, if_pos rfl] at hself
    rcases hself with hbefore | hbehind
    · exact hold (.inl hbefore)
    · by_cases hend : s.pool.blockEnd x ≤ y
      · exact hold (.inr hend)
      · -- in what the block before the hint has given up, which ends at the next node
        rw [Pool.blockEnd] at hend
        change y < s.pool.first at hy
        have hfirst := h.represents.first.resolve_left (by omega)
        obtain ⟨xs, ys, rfl⟩ := append_of_mem hx
        have hincreasing := pairwise_append.1 (h.represents.increasing h.sound)
        cases ys with
        | nil =>
          have hle : s.pool.first ≤ x := by
            rcases mem_append.1 hfirst with hmem | hmem
            · exact (hincreasing.2.2 _ hmem x mem_cons_self).le
            · exact (mem_singleton.1 hmem).le
          omega
        | cons b ys =>
          have hnext : (s.pool.node x).next = b := h.represents.at.2
          have hxb : s.pool.blockEnd x ≤ b :=
            (pairwise_cons.1 (pairwise_append.1 h.represents.apart).2.1).1 b mem_cons_self
          have hgap := hguard (by omega) (by rw [h.nodeOf_eq hx]; omega)
            (by rw [h.nodeOf_eq hx]; omega)
          rw [State.nextOf, h.nodeOf_eq hx, hnext, Int.toNat_natCast] at hgap
          rw [Pool.blockEnd] at hxb
          have hb := hfree.le_of_lt (h.sound.congr ⟨rfl, rfl, rfl⟩) (a := b) (by simp) (by omega)
          have haligned : s.pool.align ∣ y := hfree.aligned
          have hround := roundUp_le haligned hbehind h.sound.align_pos
          rw [roundUp_add (Nat.dvd_add (h.represents.aligned x hx) (Sound.dvd_lead s.pool))
            h.sound.align_pos]
            at hround
          change y + s.pool.lead + k ≤ b at hb
          change k < s.pool.align + memCheckSize
          omega
  | moved _ _ halloc hgrown _ _ =>
    have hsame := hgrown.same
    have hmoved := hgrown.smallBefore
      (swMemAlloc_hint h.sound h.represents (hgrown.small h.sound).2 hsmall halloc)
    refine (hgrown.represents.setBytes _).release_small
      (h.sound.congr ⟨hsame.buf, hsame.size, hsame.align⟩) ?_
    intro y k hy hfree
    exact hmoved y k hy ⟨hfree.aligned, hfree.low, hfree.high, hfree.apart⟩
  | freed hnodes =>
    subst hnodes
    exact h.represents.release_small h.sound hsmall

theorem Represents.freeAt_roundUp (h : Represents xm nodes) (hs : Sound xm)
    (hfree : FreeAt xm nodes x n)
    (hb : b ∈ nodes) (hend : x + xm.lead + n ≤ b) : FreeAt xm nodes x (roundUp xm.align n) := by
  have hround : ∀ a ∈ nodes, x + xm.lead + n ≤ a → x + xm.lead + roundUp xm.align n ≤ a := by
    intro a ha hle
    rw [← roundUp_add (Nat.dvd_add hfree.aligned (Sound.dvd_lead xm)) hs.align_pos]
    exact roundUp_le (h.aligned a ha) hle hs.align_pos
  have hhigh := h.high b hb
  have hless := hs.lt_blockEnd b
  have hle := hround b hb hend
  exact ⟨hfree.aligned, hfree.low, by omega, fun a ha => (hfree.apart a ha).imp (hround a ha) id⟩

/-- What is free before a node is free before the first one or between two neighbours. -/
theorem FreeAt.before (hapart : ∀ a ∈ nodes, x + xm.lead + n ≤ a ∨ xm.blockEnd a ≤ x)
    (hb : b ∈ nodes) (hend : x + xm.lead + n ≤ b) : (∃ a ∈ nodes.head?, x + xm.lead + n ≤ a) ∨
      ∃ xs a b ys, nodes = xs ++ a :: b :: ys ∧ xm.blockEnd a ≤ x ∧ x + xm.lead + n ≤ b := by
  induction nodes with
  | nil => cases hb
  | cons c nodes ih =>
    rw [forall_mem_cons] at hapart
    rcases hapart.1 with hc | hc
    · exact .inl ⟨c, rfl, hc⟩
    · rcases mem_cons.1 hb with rfl | hb
      · exact .inl ⟨b, rfl, hend⟩
      · right
        rcases ih hapart.2 hb with ⟨a, ha, hle⟩ | ⟨xs, a, d, ys, rfl, hrest⟩
        · obtain ⟨ys, rfl⟩ := head?_eq_some_iff.1 ha
          exact ⟨[], c, a, ys, rfl, hc, hle⟩
        · exact ⟨c :: xs, a, d, ys, rfl, hrest⟩

theorem Represents.not_freeAt (h : Represents xm nodes) (hs : Sound xm)
    (hsmall : SmallBefore xm nodes xm.first) (hlarge : xm.align + memCheckSize ≤ roundUp xm.align n)
    (hgap : ¬xm.HasGap nodes n) (hfull : xm.limit < xm.place + xm.lead + n) :
    ¬FreeAt xm nodes x n := by
  intro hfree
  have hge := hs.lead_ge
  by_cases hx : x < xm.first
  · have hmem := h.first.resolve_left (by omega)
    have hlt := hsmall x _ hx (h.freeAt_roundUp hs hfree hmem (hfree.le_of_lt hs hmem hx))
    omega
  · by_cases hlast : ∀ a ∈ nodes, xm.blockEnd a ≤ x
    · have hplace : xm.place ≤ x := by
        obtain ⟨rfl, hlist⟩ | ⟨xs, a, rfl, hlist, htail⟩ := h.ends hs
        · rw [Pool.place, if_pos hlist]
          exact hfree.low
        · rw [Pool.place, if_neg hlist, htail]
          exact hs.nextPlace_le (h.aligned a (by simp)) hfree.aligned (hlast a (by simp))
      have hhigh := hfree.high
      omega
    · obtain ⟨b, hb, hbx⟩ := not_forall₂.1 hlast
      apply hgap
      rcases FreeAt.before hfree.apart hb ((hfree.apart b hb).resolve_right hbx) with
        ⟨a, ha, hle⟩ | ⟨xs, a, b, ys, rfl, hend, hle⟩
      · have hlow := hfree.low
        have hlist : xm.list = a := by
          rw [h.list, headD_eq_head?_getD, ha]
          rfl
        refine .inl ⟨?_, a, ha, by omega⟩
        by_contra hfirst
        have hfirst := h.list_le hs (h.first.resolve_left hfirst)
        omega
      · have hnext := hs.nextPlace_le (h.aligned a (by simp)) hfree.aligned hend
        refine .inr ⟨xs, a, b, ys, rfl, ?_, ?_⟩
        · have hincreasing := h.increasing hs
          rcases h.first with hzero | hmem
          · omega
          · rw [pairwise_append, pairwise_cons, pairwise_cons] at hincreasing
            rw [mem_append, mem_cons, mem_cons] at hmem
            rcases hmem with hmem | heq | heq | hmem
            · exact (hincreasing.2.2 _ hmem a mem_cons_self).le
            · exact heq.le
            · omega
            · have := hincreasing.2.1.2.1 _ hmem
              omega
        · rw [Pool.GapFits]
          omega

/-- In a use in which no block before the hint gives up more than a small gap, an allocation
that is larger than such a gap returns NULL only when no room is left. -/
theorem alloc_null_only_when_full {s : State} {history : List (Use × Reply)} (hxm : Initial xm)
    (hrun : Run useStep (fun s use => Proper s use ∧ KeepsSmall s use) ⟨xm, []⟩ history s) :
    ∃ nodes, Intact s nodes ∧ ∀ (size : Int) (xm' : Pool), 0 ≤ size → size < 2 ^ 31 →
      s.pool.align + memCheckSize ≤ roundUp s.pool.align (size.toNat + memCheckSize) →
      swMemAlloc s.pool size = some (0, xm') →
      ¬∃ x, FreeAt s.pool nodes x (size.toNat + memCheckSize) := by
  have hinv : ∃ nodes, Holds s nodes ∧ SmallBefore s.pool nodes s.pool.first := by
    apply hxm.invariant (fun _ xm nodes => SmallBefore xm nodes xm.first) _
      (fun _ _ hguard => hguard.1) _ _ _ hrun
    · intro x n hx
      have hfirst : xm.first = 0 := hxm.holds.represents.first.resolve_right (not_mem_nil)
      omega
    · intro _ s nodes call p xm' nodes' h hguard he _ hsmall
      exact he.small h hguard.1.1 hguard.2 hsmall
    · intro _ s nodes a b _ hsmall y k hy hfree
      exact hsmall y k hy ⟨hfree.aligned, hfree.low, hfree.high, hfree.apart⟩
    · intro _ s nodes _ _ _ x n hx
      cases hx
  obtain ⟨nodes, h, hsmall⟩ := hinv
  refine ⟨nodes, h.intact, ?_⟩
  rintro size xm' hsize hint hlarge hnull ⟨x, hfree⟩
  obtain ⟨m, rfl⟩ := Int.eq_ofNat_of_zero_le hsize
  rw [Int.toNat_natCast] at hlarge hfree
  have hlow := hfree.low
  have hhigh := hfree.high
  have hfinish := h.sound.finish
  have hpool := h.sound.small
  have hlimit := limit_lt s.pool
  have hnone : ¬s.pool.HasGap nodes (m + memCheckSize) ∧
      s.pool.limit < s.pool.place + s.pool.lead + (m + memCheckSize) := by
    by_cases hroom : s.pool.Room nodes (m + memCheckSize)
    · obtain ⟨p, xm₁, heq, -, hfull⟩ := swMemAlloc_spec h.sound h.represents (by omega) hroom
      rw [heq] at hnull
      cases hnull
      exact hfull rfl
    · rw [Pool.Room, not_or] at hroom
      exact ⟨hroom.1, by omega⟩
  exact h.represents.not_freeAt h.sound hsmall hlarge hnone.1 hnone.2 hfree

/-- Two blocks leave four bytes behind them. -/
theorem alloc_null_only_when_full_two : ∃ xm history s xm', Initial xm ∧
    exec useStep (fun s use => Proper s use ∧ KeepsSmall s use) ⟨xm, []⟩
      [.call (.alloc 100), .call (.alloc 60)] = some (history, s) ∧
    swMemAlloc s.pool 20 = some (0, xm') ∧ ∃ nodes, Intact s nodes ∧
    ¬∃ x, FreeAt s.pool nodes x 28 := by
  obtain ⟨xm, history, s, hxm, he, hlarge, hnull⟩ := exists_use
    (fun s use => Proper s use ∧ KeepsSmall s use) 0x1000 0x100 2
      [.call (.alloc 100), .call (.alloc 60)]
    (fun _ s => s.pool.align + memCheckSize ≤ roundUp s.pool.align 28 ∧
      (swMemAlloc s.pool 20).map Prod.fst = some 0) (by decide) (by decide +kernel)
  obtain ⟨⟨p, xm'⟩, halloc, hp⟩ := Option.map_eq_some_iff.1 hnull
  cases hp
  obtain ⟨nodes, hintact, hfull⟩ := alloc_null_only_when_full hxm (.of_exec he)
  exact ⟨xm, history, s, xm', hxm, he, halloc, nodes, hintact,
    hfull 20 xm' (by decide) (by decide) hlarge halloc⟩

/-- The search for a fourth block has moved the hint behind the first one; what this one then
gives up is not found any more. -/
theorem shrunk_block_is_not_found : ∃ xm history s, Initial xm ∧
    exec useStep Proper ⟨xm, []⟩ ([.alloc 40, .alloc 40, .alloc 40, .alloc 40,
    .realloc 0x1038 0].map .call) =
      some (history, s) ∧ (swMemAlloc s.pool 8).map Prod.fst = some 0 ∧
    FreeAt s.pool (s.live.map s.pool.nodeOf) 0x1040 (8 + memCheckSize) :=
  exists_use _ 0x1000 0x100 2 _ _ (by decide) (by decide +kernel)

end SwApi.Memory
