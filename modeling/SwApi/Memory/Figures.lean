import Mathlib.Algebra.BigOperators.Group.List.Basic
import SwApi.Memory.Use

/-! The figures of a pool over its whole use: what the blocks take together, and how far the
pool has ever reached. -/
namespace SwApi.Memory
open Library List

variable {xm xm' : Pool}

def Pool.total (xm : Pool) (nodes : List Nat) : Int :=
  (nodes.map fun a => (xm.node a).size + nodeBytes).sum

theorem Pool.total_cons (xm : Pool) (a : Nat) (nodes : List Nat) :
    xm.total (a :: nodes) = (xm.node a).size + nodeBytes + xm.total nodes := by
  simp [total]

theorem Pool.total_perm (xm : Pool) (h : nodes.Perm nodes') : xm.total nodes = xm.total nodes' :=
  (h.map _).sum_eq

theorem Pool.total_congr (h : ∀ a ∈ nodes, (xm'.node a).size = (xm.node a).size) :
    xm'.total nodes = xm.total nodes := by
  rw [total, total, map_congr_left]
  intro a ha
  rw [h a ha]

theorem total_le (hs : Sound xm) (hsized : ∀ a ∈ nodes, memCheckSize ≤ (xm.node a).size)
    (hapart : nodes.Pairwise fun a b => xm.blockEnd a ≤ b) (hlow : ∀ a ∈ nodes, start ≤ a)
    (hhigh : ∀ a ∈ nodes, xm.blockEnd a ≤ stop) (hle : start ≤ stop) :
    0 ≤ xm.total nodes ∧ xm.total nodes ≤ stop - start := by
  induction nodes generalizing start with
  | nil => exact ⟨le_rfl, by simpa [Pool.total] using hle⟩
  | cons a nodes ih =>
    have hge : nodeBytes ≤ xm.lead := hs.lead_ge
    have ha := hsized a mem_cons_self
    have hstart := hlow a mem_cons_self
    have hstop := hhigh a mem_cons_self
    rw [forall_mem_cons] at hsized hhigh
    rw [pairwise_cons] at hapart
    obtain ⟨hzero, hrest⟩ := ih hsized.2 hapart.2 hapart.1 hhigh.2 hstop
    rw [Pool.total_cons]
    rw [Pool.blockEnd, Pool.extent] at hrest hstop
    omega

theorem Represents.total_int (h : Represents xm nodes) (hs : Sound xm) :
    int32 (xm.total nodes) = xm.total nodes := by
  have hnear := hs.limit_near
  by_cases hnil : nodes = []
  · rw [hnil]
    rfl
  · obtain ⟨a, ha⟩ := exists_mem_of_ne_nil nodes hnil
    have hlow := h.low a ha
    have hhigh := h.high a ha
    have hless := hs.lt_blockEnd a
    have hle := total_le hs h.sized h.apart h.low h.high (by omega)
    exact int32_eq (by omega) (by omega)

theorem Grown.perm (h : Grown xm xm' nodes nodes' x n) (hs : Sound xm)
    (hrep : Represents xm nodes) : nodes'.Perm (x :: nodes) := by
  rw [perm_ext_iff_of_nodup (h.represents.nodup (hs.congr h.same))
    (nodup_cons.2 ⟨h.fresh, hrep.nodup hs⟩)]
  intro a
  rw [h.mem, mem_cons]

theorem Grown.total (h : Grown xm xm' nodes nodes' x n) (hs : Sound xm)
    (hrep : Represents xm nodes) : xm'.total nodes' = xm.total nodes + (n + nodeBytes) := by
  rw [xm'.total_perm (h.perm hs hrep), Pool.total_cons, h.new,
    Pool.total_congr fun a ha => h.old a fun heq => h.fresh (heq ▸ ha)]
  omega

theorem Represents.release_total (h : Represents xm (xs ++ x :: ys)) (hs : Sound xm)
    (htotal : xm.allocSize = xm.total (xs ++ x :: ys)) :
    (xm.release x).allocSize = (xm.release x).total (xs ++ ys) := by
  have hrest := (h.release hs).total_int (hs.congr ⟨rfl, rfl, rfl⟩)
  rw [xm.total_perm perm_middle, Pool.total_cons] at htotal
  rw [← hrest, Pool.total_congr fun a _ => xm.release_size x a]
  change int32 (xm.allocSize - ((xm.node x).size + nodeBytes)) = _
  congr 1
  omega

theorem Grown.allocSize {m : Nat} (h : Grown xm xm' nodes nodes' x (m + memCheckSize))
    (hs : Sound xm)
    (hrep : Represents xm nodes) (halloc : swMemAlloc xm m = some (x + xm.lead, xm'))
    (htotal : xm.allocSize = xm.total nodes) : xm'.allocSize = xm'.total nodes' := by
  obtain ⟨xm₁, hsame, rfl⟩ := h.accounted hs halloc
  rw [← h.represents.total_int (hs.congr h.same), h.total hs hrep, ← htotal, ← hsame.allocSize]
  rfl

theorem Effect.total (he : Effect xm nodes call p xm' nodes') (hs : Sound xm)
    (hrep : Represents xm nodes) (htotal : xm.allocSize = xm.total nodes) :
    xm'.allocSize = xm'.total nodes' := by
  cases he with
  | refused _ _ h =>
    rw [h.eq]
    exact htotal
  | grown _ halloc h => exact h.allocSize hs hrep halloc htotal
  | @resized x m hx hfits =>
    obtain ⟨xs, ys, rfl⟩ := append_of_mem hx
    have hfresh := (nodup_cons.1 (nodup_middle.1 (hrep.nodup hs))).1
    rw [← (hrep.keep hs (Nat.le_add_left ..) hfits _).total_int (hs.congr ⟨rfl, rfl, rfl⟩)]
    rw [xm.total_perm perm_middle, Pool.total_cons] at htotal
    rw [Pool.total_perm _ perm_middle, Pool.total_cons]
    have hothers : (xm.resize (x + xm.lead) x (m + memCheckSize : Nat)).total (xs ++ ys) =
        xm.total (xs ++ ys) := by
      apply Pool.total_congr
      intro a ha
      have hne : a ≠ x := fun heq => hfresh (heq ▸ ha)
      rw [Pool.resize_size, if_neg hne]
    rw [Pool.resize_size, if_pos rfl, hothers]
    change int32 (xm.allocSize - (xm.node x).size + _) = _
    congr 1
    omega
  | moved _ _ halloc h =>
    have hsame := h.same
    exact (h.represents.setBytes _).release_total (hs.congr ⟨hsame.buf, hsame.size, hsame.align⟩)
      (h.allocSize hs hrep halloc htotal)
  | freed hnodes =>
    subst hnodes
    exact hrep.release_total hs htotal

theorem Initial.figures (h : Initial xm) : xm.allocSize = 0 ∧ xm.maxpos = 0 := by
  obtain ⟨node, bytes, buf, size, align, -, -, -, -, hinit⟩ := h
  rw [swMemInitEx] at hinit
  split at hinit
  · cases hinit
  · cases hinit
    exact ⟨rfl, rfl⟩

def ResetEmpty (s : State) (use : Use) : Prop := Proper s use ∧ (use = .reset → s.pool.list = 0)
  deriving Decidable

/-- In a use that resets the pool only when it is empty, the size of all blocks is what the
nodes of the list take. -/
theorem alloc_size_is_total {s : State} {history : List (Use × Reply)} (hxm : Initial xm)
    (hrun : Run useStep ResetEmpty ⟨xm, []⟩ history s) : ∃ nodes, Intact s nodes ∧
      swMemGetAllocSize s.pool = (nodes.map fun a => (s.pool.node a).size + nodeBytes).sum ∧
      (s.pool.list = 0 → swMemGetAllocSize s.pool = 0) := by
  have hinv : ∃ nodes, Holds s nodes ∧ s.pool.allocSize = s.pool.total nodes := by
    apply hxm.invariant (fun _ xm nodes => xm.allocSize = xm.total nodes) _
      (fun _ _ hguard => hguard.1) _ _ _ hrun
    · exact hxm.figures.1
    · intro _ s nodes call p xm' nodes' h _ he _ htotal
      exact he.total h.sound h.represents htotal
    · intro _ s nodes a b _ htotal
      exact htotal
    · intro _ s nodes h hguard htotal
      obtain ⟨rfl, -⟩ | ⟨xs, a, -, hne, -⟩ := h.represents.ends h.sound
      · exact htotal
      · exact absurd (hguard.2 rfl) hne
  obtain ⟨nodes, h, htotal⟩ := hinv
  refine ⟨nodes, h.intact, htotal, ?_⟩
  intro hlist
  obtain ⟨rfl, -⟩ | ⟨xs, a, -, hne, -⟩ := h.represents.ends h.sound
  · exact htotal
  · exact absurd hlist hne

/-- Blocks in a gap and behind the last one, one resized and one moved; the pool is reset when
all of them have been freed. -/
theorem alloc_size_is_total_moved : ∃ xm history s, Initial xm ∧
    exec useStep ResetEmpty ⟨xm, []⟩ (.reset :: [.alloc 40, .alloc 40, .alloc 8, .free 0x1048,
      .alloc 0, .realloc 0x1048 16, .realloc 0x1090 60].map .call) = some (history, s) ∧
    swMemGetAllocSize s.pool = 168 ∧ ∃ nodes, Intact s nodes ∧
      swMemGetAllocSize s.pool = (nodes.map fun a => (s.pool.node a).size + nodeBytes).sum := by
  obtain ⟨xm, history, s, hxm, he, hsize⟩ := exists_use ResetEmpty 0x1002 0x400 3
    (.reset :: [.alloc 40, .alloc 40, .alloc 8, .free 0x1048, .alloc 0, .realloc 0x1048 16,
      .realloc 0x1090 60].map .call) (fun _ s => swMemGetAllocSize s.pool = 168) (by decide)
    (by decide +kernel)
  obtain ⟨nodes, hintact, htotal, -⟩ := alloc_size_is_total hxm (.of_exec he)
  exact ⟨xm, history, s, hxm, he, hsize, nodes, hintact, htotal⟩

/-- A reset takes the blocks out of the list but leaves their size in the figure. -/
theorem reset_keeps_alloc_size : ∃ xm history s, Initial xm ∧
    exec useStep Proper ⟨xm, []⟩ [.call (.alloc 16), .reset] = some (history, s) ∧
    s.pool.list = 0 ∧ swMemGetAllocSize s.pool = 44 :=
  exists_use _ 0x1000 0x400 2 _ _ (by decide) (by decide +kernel)

theorem Represents.curSize (h : Represents xm nodes) (hs : Sound xm) :
    (∀ a ∈ nodes, (xm.blockEnd a : Int) ≤ xm.buf + swMemGetCurSize xm) ∧ 0 ≤ swMemGetCurSize xm ∧
      (swMemGetCurSize xm = 0 ∨ ∃ a ∈ nodes, (xm.blockEnd a : Int) =
      xm.buf + swMemGetCurSize xm) := by
  obtain ⟨rfl, hlist⟩ | ⟨xs, a, rfl, -, htail⟩ := h.ends hs
  · have htail : xm.tail = 0 := h.tail
    simp [swMemGetCurSize, htail]
  · have ha : a ∈ xs ++ [a] := by simp
    have hlow := h.low a ha
    have hhigh := h.end_le ha
    have hnear := hs.limit_near
    have hcur : swMemGetCurSize xm = xm.blockEnd a - xm.buf := by
      rw [swMemGetCurSize, htail, if_pos (h.ne_zero hs ha), h.user_eq hs ha, h.size_eq ha,
        Pool.blockEnd]
      have hlead : int32 ((a + xm.lead : Nat) - xm.buf : Int) = (a + xm.lead : Nat) - xm.buf :=
        int32_eq (by omega) (by omega)
      rw [hlead, int32_eq (by omega) (by omega)]
      omega
    have hless := hs.lt_blockEnd a
    refine ⟨?_, by omega, .inr ⟨a, ha, by omega⟩⟩
    intro b hb
    rcases mem_append.1 hb with hb | hb
    · have hab := (pairwise_append.1 h.apart).2.2 b hb a mem_cons_self
      omega
    · rw [mem_singleton.1 hb]
      omega

/-- What `sw_mem_get_cur_size` has returned so far, 0 of the new pool included. -/
def seen (history : List (Use × Reply)) : Set Int := {c | c = 0 ∨ ∃ e ∈ history, e.2.curSize = c}

/-- The mark is the greatest size in use so far, and no block reaches further. -/
structure Marked (history : List (Use × Reply)) (xm : Pool) (nodes : List Nat) : Prop where
  greatest : IsGreatest (seen history) xm.maxpos
  reach : ∀ a ∈ nodes, (xm.blockEnd a : Int) ≤ xm.buf + xm.maxpos

theorem Marked.next (h : Marked history xm nodes) (hs : Sound xm') (hrep : Represents xm' nodes')
    (hreach : ∀ a ∈ nodes', (xm'.blockEnd a : Int) ≤ xm'.buf + xm'.maxpos)
    (hmark : xm'.maxpos = xm.maxpos ∨ xm.maxpos < xm'.maxpos ∧
      ∃ a ∈ nodes', (xm'.blockEnd a : Int) = xm'.buf + xm'.maxpos) (use : Use) (p : Nat) :
    Marked (history ++ [(use, ⟨p, swMemGetCurSize xm'⟩)]) xm' nodes' := by
  obtain ⟨hends, hpos, hcur⟩ := hrep.curSize hs
  have hzero : 0 ≤ xm.maxpos := h.greatest.2 (.inl rfl)
  have hle : xm.maxpos ≤ xm'.maxpos := by
    rcases hmark with heq | ⟨hlt, -⟩
    · exact heq.ge
    · exact hlt.le
  have hcurle : swMemGetCurSize xm' ≤ xm'.maxpos := by
    rcases hcur with hnone | ⟨a, ha, hend⟩
    · omega
    · have := hreach a ha
      omega
  refine ⟨⟨?_, ?_⟩, hreach⟩
  · rcases hmark with heq | ⟨-, a, ha, hend⟩
    · rw [heq]
      refine h.greatest.1.imp id ?_
      rintro ⟨e, he, hsize⟩
      exact ⟨e, mem_append_left _ he, hsize⟩
    · refine .inr ⟨_, mem_append_right _ mem_cons_self, ?_⟩
      have := hends a ha
      change swMemGetCurSize xm' = _
      omega
  · rintro c (rfl | ⟨e, he, rfl⟩)
    · omega
    · rcases mem_append.1 he with he | he
      · exact (h.greatest.2 (.inr ⟨e, he, rfl⟩)).trans hle
      · rw [mem_singleton.1 he]
        exact hcurle

theorem Grown.reach {m : Nat} (h : Grown xm xm' nodes nodes' x (m + memCheckSize)) (hs : Sound xm)
    (halloc : swMemAlloc xm m = some (x + xm.lead, xm'))
    (hreach : ∀ a ∈ nodes, (xm.blockEnd a : Int) ≤ xm.buf + xm.maxpos) :
    (∀ a ∈ nodes', (xm'.blockEnd a : Int) ≤ xm'.buf + xm'.maxpos) ∧ (xm'.maxpos = xm.maxpos ∨
      xm.maxpos < xm'.maxpos ∧ (xm'.blockEnd x : Int) = xm'.buf + xm'.maxpos) := by
  obtain ⟨hlimit, hint⟩ := h.small hs
  have hlow := h.represents.low x ((h.mem x).2 (.inl rfl))
  have hnear := hs.limit_near
  have hnew := h.blockEnd_new
  obtain ⟨xm₁, hfigures, rfl⟩ := h.accounted hs halloc
  have hbuf : (xm₁.account (x + xm.lead) (m + memCheckSize : Nat)).buf = xm.buf := h.same.buf
  have hlead : int32 ((x + xm.lead : Nat) - xm.buf : Int) = (x + xm.lead : Nat) - xm.buf :=
    int32_eq (by omega) (by omega)
  have hpos : int32 ((x + xm.lead : Nat) - xm.buf + (m + memCheckSize : Nat) : Int) =
      (x + xm.lead + (m + memCheckSize) : Nat) - xm.buf := by
    rw [int32_eq (by omega) (by omega)]
    omega
  have hmark : (xm₁.account (x + xm.lead) (m + memCheckSize : Nat)).maxpos =
      max xm.maxpos ((x + xm.lead + (m + memCheckSize) : Nat) - xm.buf) := by
    simp only [Pool.account, hfigures.buf, hfigures.maxpos, hlead, hpos]
    omega
  rw [hbuf, hmark, hnew]
  refine ⟨?_, by omega⟩
  intro a ha
  rcases (h.mem a).1 ha with rfl | ha
  · omega
  · have hold := hreach a ha
    rw [h.same.blockEnd (h.old a fun heq => h.fresh (heq ▸ ha))]
    omega

def InMark (s : State) : Use → Prop
  | .call (.realloc p size) => p ≠ 0 → s.nextOf p = 0 → p + size + memCheckSize ≤ s.pool.limit →
      p + size + memCheckSize ≤ s.pool.buf + s.pool.maxpos
  | _ => True

instance (s : State) (u : Use) : Decidable (InMark s u) := by
  unfold InMark
  split <;> infer_instance

theorem Effect.reach (he : Effect s.pool nodes call p xm' nodes') (h : Holds s nodes)
    (hguard : InMark s (.call call))
    (hreach : ∀ a ∈ nodes, (s.pool.blockEnd a : Int) ≤ s.pool.buf + s.pool.maxpos) :
    (∀ a ∈ nodes', (xm'.blockEnd a : Int) ≤ xm'.buf + xm'.maxpos) ∧ (xm'.maxpos = s.pool.maxpos ∨
      s.pool.maxpos < xm'.maxpos ∧ ∃ a ∈ nodes',
      (xm'.blockEnd a : Int) = xm'.buf + xm'.maxpos) := by
  have hge := h.sound.lead_ge
  cases he with
  | refused _ _ hhinted =>
    rw [hhinted.eq]
    exact ⟨hreach, .inl rfl⟩
  | @grown _ m x _ _ _ halloc hgrown =>
    obtain ⟨hends, hmark⟩ := hgrown.reach h.sound halloc hreach
    exact ⟨hends, hmark.imp id fun hx => ⟨hx.1, x, (hgrown.mem x).2 (.inl rfl), hx.2⟩⟩
  | @resized x m hx hfits =>
    refine ⟨?_, .inl rfl⟩
    obtain ⟨xs, ys, rfl⟩ := append_of_mem hx
    have hself := hreach x hx
    have hnext := h.represents.at.2
    rw [Pool.blockEnd] at hself
    have hend : ((x + s.pool.lead + (m + memCheckSize) : Nat) : Int) ≤ s.pool.buf +
      s.pool.maxpos := by
      rcases hfits with hsmaller | hroom
      · omega
      · cases ys with
        | nil =>
          replace hnext : (s.pool.node x).next = 0 := hnext
          rw [Pool.bound, if_neg (not_not.2 hnext)] at hroom
          have hlast := hguard (by omega) (by rw [State.nextOf, h.nodeOf_eq hx, hnext])
          push_cast at hlast ⊢
          omega
        | cons b ys =>
          replace hnext : (s.pool.node x).next = b := hnext
          have hb := hreach b (by simp)
          have hless := h.sound.lt_blockEnd b
          rw [Pool.bound, hnext, if_pos (h.represents.ne_zero h.sound (by simp))] at hroom
          omega
    intro a ha
    rw [Pool.resize_blockEnd]
    split
    · rename_i hax
      rw [hax]
      exact hend
    · exact hreach a ha
  | @moved x y m len xm₁ xs ys hx _ halloc hgrown _ _ =>
    obtain ⟨hends, hmark⟩ := hgrown.reach h.sound halloc hreach
    have hsame :
      ∀ a, ({ xm₁ with bytes := copyBytes xm₁.bytes (y + s.pool.lead) (x + s.pool.lead) len
        }.release x).blockEnd a = xm₁.blockEnd a := by
      intro a
      rw [Pool.release_blockEnd]
      rfl
    simp only [hsame]
    refine ⟨fun a ha => hends a ?_, hmark.imp id fun hy => ⟨hy.1, y, ?_, hy.2⟩⟩
    · rw [mem_append] at ha
      rw [mem_append, mem_cons]
      tauto
    · have hmem := (hgrown.mem y).2 (.inl rfl)
      have hne : y ≠ x := fun heq => hgrown.fresh (heq ▸ hx)
      rw [mem_append, mem_cons] at hmem
      rw [mem_append]
      tauto
  | @freed x xs ys hnodes =>
    subst hnodes
    refine ⟨?_, .inl rfl⟩
    intro a ha
    rw [Pool.release_blockEnd]
    apply hreach a
    rw [mem_append] at ha
    rw [mem_append, mem_cons]
    tauto

/-- In a use whose last block never grows behind the mark where it is, the mark is the greatest
size that was ever in use. -/
theorem max_size_is_greatest {s : State} {history : List (Use × Reply)} (hxm : Initial xm)
    (hrun : Run useStep (fun s use => Proper s use ∧ InMark s use) ⟨xm, []⟩ history s) :
    IsGreatest {c | c = swMemGetCurSize xm ∨ ∃ e ∈ history, e.2.curSize = c}
    (swMemGetMaxSize s.pool) := by
  have hinv : ∃ nodes, Holds s nodes ∧ Marked history s.pool nodes := by
    apply hxm.invariant Marked _ (fun _ _ hguard => hguard.1) _ _ _ hrun
    · refine ⟨⟨.inl hxm.figures.2, ?_⟩, by simp⟩
      rintro c (rfl | ⟨e, he, -⟩)
      · exact hxm.figures.2.ge
      · cases he
    · intro _ s nodes call p xm' nodes' h hguard he hnext hmarked
      obtain ⟨hreach, hmark⟩ := he.reach h hguard.2 hmarked.reach
      exact hmarked.next hnext.sound hnext.represents hreach hmark _ _
    · intro _ s nodes a b h hmarked
      exact hmarked.next (h.store a b).sound (h.store a b).represents hmarked.reach (.inl rfl) _ _
    · intro _ s nodes h _ hmarked
      exact hmarked.next h.reset.sound h.reset.represents (by simp) (.inl rfl) _ _
  obtain ⟨nodes, -, hmarked⟩ := hinv
  have hnew : swMemGetCurSize xm = 0 := by
    have htail : xm.tail = 0 := hxm.holds.represents.tail
    simp [swMemGetCurSize, htail]
  rw [hnew]
  exact hmarked.greatest

/-- A block grows in its place before the mark, and one is freed behind it. -/
theorem max_size_is_greatest_freed : ∃ xm history s, Initial xm ∧
    exec useStep (fun s use => Proper s use ∧ InMark s use) ⟨xm, []⟩
      ([.alloc 40, .alloc 40, .free 0x1090, .realloc 0x1048 60].map .call) = some (history, s) ∧
    swMemGetMaxSize s.pool = 144 ∧
    IsGreatest {c | c = swMemGetCurSize xm ∨ ∃ e ∈ history, e.2.curSize = c}
    (swMemGetMaxSize s.pool) := by
  obtain ⟨xm, history, s, hxm, he, hsize⟩ := exists_use (fun s use => Proper s use ∧ InMark s use)
    0x1002 0x400 3 ([.alloc 40, .alloc 40, .free 0x1090, .realloc 0x1048 60].map .call)
    (fun _ s => swMemGetMaxSize s.pool = 144) (by decide) (by decide +kernel)
  exact ⟨xm, history, s, hxm, he, hsize, max_size_is_greatest hxm (.of_exec he)⟩

/-- The only block grows in its place: the pool reaches further than its mark. -/
theorem grown_in_place_passes_mark : ∃ xm history s, Initial xm ∧
    exec useStep Proper ⟨xm, []⟩ [.call (.alloc 16), .call (.realloc 0x1038 100)] =
    some (history, s) ∧ swMemGetMaxSize s.pool = 44 ∧ swMemGetCurSize s.pool = 128 :=
  exists_use _ 0x1000 0x400 2 _ _ (by decide) (by decide +kernel)

end SwApi.Memory
