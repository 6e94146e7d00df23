import Mathlib.Data.List.Perm.Subperm
import SwApi.Memory.Layout

/-! Where an allocation finds its place: before the first node, in the first gap that is large
enough, or behind the last node. -/
namespace SwApi.Memory
open Library List Function

theorem spliced_insertAfter (ha : a ≠ 0) (hax : a ≠ x) (hb : (h a).next = b) (hb0 : b ≠ 0)
    (hbx : b ≠ x) (hba : b ≠ a) {n : Nat} {xs ys : List Nat} :
    Spliced h (insertAfter (newNode h x n) x a) (xs ++ [a]) x (b :: ys) n := by
  intro c
  simp only [insertAfter, newNode, setPrev, setNext, if_pos ha, update_self,
    update_of_ne hax, update_of_ne hax.symm, update_of_ne hba,
    update_of_ne hbx, hb, if_pos hb0, getLast?_concat, getLastD_concat,
    head?_cons, headD_cons, Option.some.injEq]
  ext <;> grind [update_apply]

theorem spliced_insertBefore (hb0 : b ≠ 0) (hbx : b ≠ x) (hb : (h b).prev = 0) {n : Nat}
    {ys : List Nat} : Spliced h (insertBefore (newNode h x n) x b) [] x (b :: ys) n := by
  intro c
  simp only [insertBefore, newNode, setPrev, setNext, if_pos hb0, update_self,
    update_of_ne hbx, update_of_ne hbx.symm, hb, ne_eq, not_true_eq_false, if_false,
    getLast?_nil, getLastD_nil, head?_cons, headD_cons, Option.some.injEq,
    reduceCtorEq]
  ext <;> grind [update_apply]

section
variable {n : Nat}

def Pool.GapFits (xm : Pool) (a b n : Nat) : Prop := xm.nextPlace a + xm.lead + n ≤ b
  deriving Decidable

def Pool.fill (xm : Pool) (f c n : Nat) : Pool :=
  let x := xm.nextPlace c
  { xm with first := f, node := insertAfter (newNode xm.node x n) x c }

/-- What the loop computes for two neighbours: where the gap begins and what would
be left of it behind a header. -/
theorem Represents.gap (h : Represents xm (xs ++ a :: b :: ys)) (hs : Sound xm) :
    addr (xm.user a + alignSize (xm.align - 1) (xm.node a).size) = xm.nextPlace a ∧
    xm.user (xm.nextPlace a) = xm.nextPlace a + xm.lead ∧
    int32 (addr (b - (xm.nextPlace a + xm.lead : Nat))) = b - (xm.nextPlace a + xm.lead : Nat) ∧
    xm.nextPlace a ≤ b := by
  have ha : a ∈ xs ++ a :: b :: ys := by simp
  have hb : b ∈ xs ++ a :: b :: ys := by simp
  have hab : xm.blockEnd a ≤ b :=
    (pairwise_cons.1 (pairwise_append.1 h.apart).2.1).1 b mem_cons_self
  have hle := hs.nextPlace_le (h.aligned a ha) (h.aligned b hb) hab
  have hhigh := h.end_le hb
  have hlow := h.low a ha
  have hlimit := limit_lt xm
  have hnear := hs.limit_near
  have hnext : xm.nextPlace a = a + xm.lead + roundUp xm.align (xm.extent a) := rfl
  have hsize : alignSize (xm.align - 1) (xm.node a).size = roundUp xm.align (xm.extent a) := by
    rw [h.size_eq ha]
    exact hs.alignSize_eq (by omega)
  have huser : xm.user (xm.nextPlace a) = xm.nextPlace a + xm.lead :=
    hs.user_eq (dvd_nextPlace (h.aligned a ha)) (by omega)
  refine ⟨?_, huser, ?_, hle⟩
  · apply addr_eq
    · rw [h.user_eq hs ha, hsize, hnext]
      push_cast
      rfl
    · omega
  · exact int32_addr (by omega) (by omega)

theorem Represents.setFirst (h : Represents xm nodes) (hf : f = xm.first ∨ f ∈ nodes) :
    Represents { xm with first := f } nodes := by
  refine h.congr ⟨rfl, rfl, rfl⟩ rfl rfl rfl ?_
  rcases hf with rfl | hf
  · exact h.first
  · exact .inr hf

/-- One round of the loop at two neighbours; `f` is the hint it goes on with. -/
theorem Represents.mallocLoop_round (h : Represents xm (xs ++ a :: b :: ys)) (hs : Sound xm)
    (fuel : Nat) {firstlen : Int}
    (hf : (if firstlen ≤ (xm.align - 1 : Nat) + 8 then a else xm.first) = f) :
    mallocLoop n (fuel + 1) xm a firstlen =
      if xm.GapFits a b n then some (xm.nextPlace a + xm.lead, xm.fill f a n)
      else mallocLoop n fuel { xm with first := f } b
        (if firstlen ≤ (xm.align - 1 : Nat) + 8 then b - (xm.nextPlace a + xm.lead : Nat)
        else firstlen) := by
  have hnext : (xm.node a).next = b := h.at.2
  have hb0 : b ≠ 0 := h.ne_zero hs (by simp)
  obtain ⟨hstop, huser, hlen, -⟩ := h.gap hs
  have hfirst : (if firstlen ≤ (xm.align - 1 : Nat) + 8 then { xm with first := a } else xm) =
      { xm with first := f } := by
    rw [← hf]
    split <;> rfl
  have hfits : (n : Int) ≤ b - (xm.nextPlace a + xm.lead : Nat) ↔ xm.GapFits a b n := by
    rw [Pool.GapFits]
    omega
  have huser' : ({ xm with first := f } : Pool).user (xm.nextPlace a) =
      xm.nextPlace a + xm.lead := huser
  simp only [mallocLoop, hnext, if_neg hb0, hfirst, hstop, huser, huser', hlen, hfits]
  rfl

/-- The loop from node `a` on: it puts a node into the first gap that fits, or there
is none. The hint moves along the list. -/
theorem mallocLoop_spec (hs : Sound xm) (h : Represents xm (xs ++ a :: ys)) (fuel : Nat)
    (hfuel : ys.length < fuel) (firstlen : Int) : ∃ f, (f = xm.first ∨ f ∈ xs ++ a :: ys) ∧
      ((∃ zs c b ys', a :: ys = zs ++ c :: b :: ys' ∧ xm.GapFits c b n ∧
        mallocLoop n fuel xm a firstlen = some (xm.nextPlace c + xm.lead, xm.fill f c n)) ∨
      (mallocLoop n fuel xm a firstlen = some (0, { xm with first := f }) ∧
        ∀ xs' c b ys', a :: ys = xs' ++ c :: b :: ys' → ¬xm.GapFits c b n)) := by
  induction ys generalizing xs a fuel xm firstlen with
  | nil =>
    cases fuel with
    | zero => omega
    | succ fuel =>
      refine ⟨xm.first, .inl rfl, .inr ⟨?_, ?_⟩⟩
      · have hnext : (xm.node a).next = 0 := h.at.2
        simp only [mallocLoop, hnext, if_true]
      · intro xs' c b ys' heq
        have hlen := congrArg List.length heq
        simp only [length_cons, length_nil, length_append] at hlen
        omega
  | cons b ys ih =>
    cases fuel with
    | zero => omega
    | succ fuel =>
      generalize hf : (if firstlen ≤ (xm.align - 1 : Nat) + 8 then a else xm.first) = f
      have hfmem : f = xm.first ∨ f ∈ xs ++ a :: b :: ys := by
        rw [← hf]
        split
        · right
          simp
        · exact .inl rfl
      rw [h.mallocLoop_round hs fuel hf]
      by_cases hfits : xm.GapFits a b n
      · rw [if_pos hfits]
        exact ⟨f, hfmem, .inl ⟨[], a, b, ys, rfl, hfits, rfl⟩⟩
      · rw [if_neg hfits]
        have hassoc : xs ++ a :: b :: ys = (xs ++ [a]) ++ b :: ys := by simp
        have hnextrep : Represents { xm with first := f } ((xs ++ [a]) ++ b :: ys) := by
          rw [← hassoc]
          exact h.setFirst hfmem
        have hsnext : Sound { xm with first := f } := hs.congr ⟨rfl, rfl, rfl⟩
        obtain ⟨f', hf', hresult⟩ := ih hsnext hnextrep fuel (by simpa using hfuel) _
        refine ⟨f', ?_, ?_⟩
        · rcases hf' with rfl | hf'
          · exact hfmem
          · right
            rw [hassoc]
            exact hf'
        · rcases hresult with ⟨zs, c, b', ys', heq, hgap, hres⟩ | ⟨hres, hnone⟩
          · exact .inl ⟨a :: zs, c, b', ys', by rw [heq, cons_append], hgap, hres⟩
          · refine .inr ⟨hres, ?_⟩
            intro xs' c b' ys' heq
            cases xs' with
            | nil =>
              cases heq
              exact hfits
            | cons d xs' => exact hnone xs' c b' ys' (List.cons.inj heq).2

theorem Represents.fill (h : Represents xm (xs ++ a :: b :: ys)) (hs : Sound xm)
    (hfits : xm.GapFits a b n) (hn : memCheckSize ≤ n) (hf : f = xm.first ∨
    f ∈ xs ++ a :: b :: ys) :
    Grown xm (xm.fill f a n) (xs ++ a :: b :: ys) (xs ++ a :: xm.nextPlace a :: b :: ys)
      (xm.nextPlace a) n := by
  have ha : a ∈ xs ++ a :: b :: ys := by simp
  have hb : b ∈ xs ++ a :: b :: ys := by simp
  have hhigh := h.end_le hb
  have hend := hs.blockEnd_le (a := a)
  have hless := hs.lt_blockEnd a
  have hlow := h.low a ha
  rw [Pool.GapFits] at hfits
  have hge := hs.lead_ge
  have hax : a ≠ xm.nextPlace a := by omega
  have hbx : b ≠ xm.nextPlace a := by omega
  have hba : b ≠ a := by omega
  have hsame : SameBuffer xm (xm.fill f a n) := ⟨rfl, rfl, rfl⟩
  have hnode : Spliced xm.node (xm.fill f a n).node (xs ++ [a]) (xm.nextPlace a) (b :: ys) n :=
    spliced_insertAfter (h.ne_zero hs ha) hax h.at.2 (h.ne_zero hs hb) hbx hba
  have hlist : (xm.fill f a n).list = (xs ++ a :: xm.nextPlace a :: b :: ys).headD 0 := by
    change xm.list = _
    rw [h.list]
    cases xs <;> rfl
  have htail : (xm.fill f a n).tail = (xs ++ a :: xm.nextPlace a :: b :: ys).getLastD 0 := by
    change xm.tail = _
    rw [h.tail]
    simp [getLastD_eq_getLast?, getLast?_append, getLast?_cons_cons]
  have hfirst : (xm.fill f a n).first = 0 ∨
      (xm.fill f a n).first ∈ xs ++ a :: xm.nextPlace a :: b :: ys := by
    have hmem : ∀ c ∈ xs ++ a :: b :: ys, c ∈ xs ++ a :: xm.nextPlace a :: b :: ys := by
      intro c hc
      rw [append_cons] at hc ⊢
      exact (Sublist.append (Sublist.refl _) (sublist_cons_self _ _)).subset hc
    rcases hf with rfl | hf
    · exact h.first.imp id (hmem _)
    · exact .inr (hmem f hf)
  -- the parts of the list that the new node comes between
  rw [append_cons xs a (xm.nextPlace a :: b :: ys)] at hlist htail hfirst ⊢
  rw [append_cons xs a (b :: ys)] at h ⊢
  apply h.insert hs hsame hnode (dvd_nextPlace (h.aligned a (by simp))) (by omega) hn _ _
    (by omega) hlist htail hfirst
  · intro c hc
    rw [getLast?_concat] at hc
    cases hc
    exact hend
  · intro c hc
    cases hc
    exact hfits

def Pool.front (xm : Pool) (n : Nat) : Pool :=
  { xm with
    list := xm.buf, first := xm.buf
    node := insertBefore (newNode xm.node xm.buf n) xm.buf xm.list }

theorem Represents.front (h : Represents xm (b :: ys)) (hs : Sound xm)
    (hfits : xm.buf + xm.lead + n ≤ b) (hn : memCheckSize ≤ n) :
    Grown xm (xm.front n) (b :: ys) (xm.buf :: b :: ys) xm.buf n := by
  have hhigh := h.high b mem_cons_self
  have hless := hs.lt_blockEnd b
  have hge := hs.lead_ge
  have hbx : b ≠ xm.buf := by omega
  have hlist : xm.list = b := h.list
  have hsame : SameBuffer xm (xm.front n) := ⟨rfl, rfl, rfl⟩
  have hnode : Spliced xm.node (xm.front n).node [] xm.buf (b :: ys) n := by
    rw [Pool.front, hlist]
    exact spliced_insertBefore (h.ne_zero hs mem_cons_self) hbx h.linked.1
  have htail : (xm.front n).tail = (xm.buf :: b :: ys).getLastD 0 := by
    change xm.tail = _
    rw [h.tail]
    cases ys <;> rfl
  have hsplit : Represents xm ([] ++ b :: ys) := h
  apply hsplit.insert hs hsame hnode hs.aligned le_rfl hn _ _ (by omega) rfl htail
    (.inr mem_cons_self)
  · intro c hc
    cases hc
  · intro c hc
    cases hc
    exact hfits

def Pool.HasGap (xm : Pool) (nodes : List Nat) (n : Nat) : Prop :=
  (xm.first = 0 ∧ ∃ b ∈ nodes.head?, xm.buf + xm.lead + n ≤ b) ∨
    ∃ xs a b ys, nodes = xs ++ a :: b :: ys ∧ xm.first ≤ a ∧ xm.GapFits a b n

theorem Represents.length_le (h : Represents xm nodes) (hs : Sound xm) :
    nodes.length ≤ xm.size.toNat := by
  have hsub : nodes ⊆ range' xm.buf xm.size.toNat := by
    intro a ha
    have hlow := h.low a ha
    have hhigh := h.high a ha
    have hless := hs.lt_blockEnd a
    have hfinish := hs.finish
    rw [mem_range'_1]
    omega
  have hle := (subperm_of_subset (h.nodup hs) hsub).length_le
  rwa [length_range'] at hle

theorem Represents.behind (h : Represents xm (xs ++ a :: ys)) (hs : Sound xm)
    (heq : xs ++ a :: ys = xs' ++ c :: b :: ys') (hle : a ≤ c) :
    ∃ zs, a :: ys = zs ++ c :: b :: ys' := by
  rcases append_eq_append_iff.1 heq with ⟨zs, -, hzs⟩ | ⟨zs, hxs, hzs⟩
  · exact ⟨zs, hzs⟩
  · cases zs with
    | nil => exact ⟨[], hzs.symm⟩
    | cons d zs =>
      -- the pair would lie before `a`
      have hcd : c = d := (List.cons.inj hzs).1
      have hlt := (pairwise_append.1 (h.increasing hs)).2.2 d (by simp [hxs]) a mem_cons_self
      omega

theorem Represents.mallocOld_eq (h : Represents xm (b :: ys)) (hs : Sound xm)
    (hfirst : xm.first = 0)
    (n : Nat) : mallocOld xm n = if xm.buf + xm.lead + n ≤ b then
    some (xm.buf + xm.lead, xm.front n)
      else mallocLoop n (xm.size.toNat + 1) xm b (b - (xm.buf + xm.lead : Nat)) := by
  have hlist : xm.list = b := h.list
  have hb : b ≠ 0 := h.ne_zero hs mem_cons_self
  have hiff : (n : Int) ≤ b - (xm.buf + xm.lead : Nat) ↔ xm.buf + xm.lead + n ≤ b := by omega
  have hlow := h.low b mem_cons_self
  have hhigh := h.end_le mem_cons_self
  have hlimit := limit_lt xm
  have hnear := hs.limit_near
  have huser : xm.user xm.buf = xm.buf + xm.lead := hs.user_eq hs.aligned (by omega)
  have hlen : int32 (addr (b - (xm.buf + xm.lead : Nat))) = b - (xm.buf + xm.lead : Nat) :=
    int32_addr (by omega) (by omega)
  rw [mallocOld, if_pos hfirst, hlist, if_neg hb, huser, hlen]
  simp only [hiff, Pool.front, hlist]

/-- `malloc_old` puts a node into a gap, or none of those it looks at has room. -/
theorem mallocOld_spec (hs : Sound xm) (h : Represents xm nodes) (hn : memCheckSize ≤ n) :
    (∃ x nodes' xm', mallocOld xm n = some (x + xm.lead, xm') ∧ Grown xm xm' nodes nodes' x n ∧
      xm.HasGap nodes n) ∨
    (∃ f, (f = xm.first ∨ f ∈ nodes) ∧ mallocOld xm n = some (0, { xm with first := f }) ∧
      ¬xm.HasGap nodes n) := by
  have hlength := h.length_le hs
  by_cases hfirst : xm.first = 0
  · cases nodes with
    | nil =>
      have hlist : xm.list = 0 := h.list
      refine .inr ⟨xm.first, .inl rfl, ?_, ?_⟩
      · rw [mallocOld, if_pos hfirst, if_pos hlist]
      · rintro (⟨-, b, hb, -⟩ | ⟨xs, a, b, ys, heq, -⟩)
        · cases hb
        · simp at heq
    | cons b ys =>
      have heq := h.mallocOld_eq hs hfirst n
      by_cases hfits : xm.buf + xm.lead + n ≤ b
      · rw [if_pos hfits] at heq
        exact .inl ⟨xm.buf, _, xm.front n, heq, h.front hs hfits hn, .inl ⟨hfirst, b, rfl, hfits⟩⟩
      · rw [if_neg hfits] at heq
        have hsplit : Represents xm ([] ++ b :: ys) := h
        rw [length_cons] at hlength
        obtain ⟨f, hf, hfound | ⟨hres, hnone⟩⟩ := mallocLoop_spec (n := n) hs hsplit
          (xm.size.toNat + 1) (by omega) (b - (xm.buf + xm.lead : Nat))
        · obtain ⟨zs, c, d, ys', hlist, hgap, hres⟩ := hfound
          rw [nil_append] at hf
          rw [hlist] at h hf ⊢
          exact .inl ⟨xm.nextPlace c, _, _, heq.trans hres, h.fill hs hgap hn hf,
            .inr ⟨zs, c, d, ys', rfl, by omega, hgap⟩⟩
        · refine .inr ⟨f, hf, heq.trans hres, ?_⟩
          rintro (⟨-, d, hd, hroom⟩ | ⟨xs, a, d, zs, hlist, -, hgap⟩)
          · cases hd
            exact hfits hroom
          · exact hnone xs a d zs hlist hgap
  · have hmem : xm.first ∈ nodes := h.first.resolve_left hfirst
    obtain ⟨xs, ys, rfl⟩ := append_of_mem hmem
    have hstep : mallocOld xm n = mallocLoop n (xm.size.toNat + 1) xm xm.first 0 := by
      rw [mallocOld, if_neg hfirst]
    rw [length_append, length_cons] at hlength
    obtain ⟨f, hf, hfound | ⟨hres, hnone⟩⟩ := mallocLoop_spec (n := n) hs h
      (xm.size.toNat + 1) (by omega) 0
    · obtain ⟨zs, c, d, ys', heq, hgap, hres⟩ := hfound
      have hle : xm.first ≤ c := by
        cases zs with
        | nil => exact (List.cons.inj heq).1.le
        | cons e zs =>
          have hincreasing := (pairwise_append.1 (h.increasing hs)).2.1
          rw [heq, cons_append, ← (List.cons.inj heq).1, pairwise_cons] at hincreasing
          exact (hincreasing.1 c (by simp)).le
      rw [heq, ← append_assoc] at h hf ⊢
      exact .inl ⟨xm.nextPlace c, _, _, hstep.trans hres, h.fill hs hgap hn hf,
        .inr ⟨xs ++ zs, c, d, ys', rfl, hle, hgap⟩⟩
    · refine .inr ⟨f, hf, hstep.trans hres, ?_⟩
      rintro (⟨hzero, -⟩ | ⟨xs', a, d, ys', heq, hle, hgap⟩)
      · exact hfirst hzero
      · obtain ⟨zs, hzs⟩ := h.behind hs heq hle
        exact hnone zs a d ys' hzs hgap

def Pool.place (xm : Pool) : Nat := if xm.list = 0 then xm.buf else xm.nextPlace xm.tail

section
variable (h : Represents xm nodes) (hs : Sound xm)
include h hs

theorem Represents.ends :
    (nodes = [] ∧ xm.list = 0) ∨ ∃ xs a, nodes = xs ++ [a] ∧ xm.list ≠ 0 ∧ xm.tail = a := by
  rcases eq_nil_or_concat' nodes with rfl | ⟨xs, a, rfl⟩
  · exact .inl ⟨rfl, h.list⟩
  · refine .inr ⟨xs, a, rfl, ?_, ?_⟩
    · apply h.ne_zero hs
      rw [h.list]
      cases xs <;> simp
    · rw [h.tail, getLastD_concat]

theorem Represents.top_eq :
    xm.top = if xm.list = 0 then xm.buf else xm.place % 2 ^ 32 := by
  rcases h.ends hs with ⟨-, hlist⟩ | ⟨xs, a, rfl, hlist, htail⟩
  · rw [Pool.top, if_pos hlist, if_pos hlist]
  · have ha : a ∈ xs ++ [a] := by simp
    rw [Pool.top, Pool.place, if_neg hlist, if_neg hlist, if_neg hlist, htail, h.user_eq hs ha,
      h.size_eq ha]
    exact hs.alignPtr_mod (Nat.dvd_add (h.aligned a ha) (Sound.dvd_lead xm)) _

theorem Represents.place_spec :
    xm.align ∣ xm.place ∧ xm.buf ≤ xm.place ∧ ∀ a ∈ nodes.getLast?, xm.blockEnd a ≤ xm.place := by
  rcases h.ends hs with ⟨rfl, hlist⟩ | ⟨xs, a, rfl, hlist, htail⟩
  · rw [Pool.place, if_pos hlist]
    refine ⟨hs.aligned, le_rfl, ?_⟩
    intro a ha
    cases ha
  · have ha : a ∈ xs ++ [a] := by simp
    have hlow := h.low a ha
    have hless := hs.lt_blockEnd a
    have hend := hs.blockEnd_le (a := a)
    rw [Pool.place, if_neg hlist, htail]
    refine ⟨dvd_nextPlace (h.aligned a ha), by omega, ?_⟩
    intro c hc
    rw [getLast?_concat] at hc
    cases hc
    exact hend

theorem Represents.user_top :
    xm.user xm.top = (xm.place + xm.lead) % 2 ^ 32 := by
  have htop := h.top_eq hs
  by_cases hlist : xm.list = 0
  · rw [if_pos hlist] at htop
    rw [htop, Pool.place, if_pos hlist]
    exact hs.alignPtr_mod hs.aligned _
  · rw [if_neg hlist] at htop
    have hdvd : xm.align ∣ xm.place % 2 ^ 32 := by
      obtain ⟨k, hk, hpow⟩ := hs.power
      rw [Nat.dvd_mod_iff (by rw [hpow]; exact Nat.pow_dvd_pow 2 (by omega))]
      exact (h.place_spec hs).1
    rw [htop]
    exact (hs.alignPtr_mod hdvd _).trans (Nat.mod_add_mod ..)

theorem Represents.spliced_append
    (hx : x ∉ nodes) (n : Nat) : Spliced xm.node (xm.append x n).node nodes x [] n := by
  intro c
  rcases h.ends hs with ⟨rfl, hlist⟩ | ⟨xs, a, rfl, hlist, htail⟩
  · simp only [Pool.append, hlist, if_true, newNode, setPrev, update_self]
    ext <;> grind [update_apply]
  · have ha : a ∈ xs ++ [a] := by simp
    have hax : a ≠ x := fun heq => hx (heq ▸ ha)
    simp only [Pool.append, if_neg hlist, htail, if_neg (h.ne_zero hs ha), newNode, setPrev,
      setNext, update_self, update_of_ne hax, update_of_ne hax.symm,
      getLast?_concat, getLastD_concat, Option.some.injEq]
    ext <;> grind [update_apply]

theorem Represents.append (hn : memCheckSize ≤ n)
    (hroom : xm.place + xm.lead + n ≤ xm.limit) :
    Grown xm (xm.append xm.place n) nodes (nodes ++ [xm.place]) xm.place n := by
  obtain ⟨haligned, hlow, hbefore⟩ := h.place_spec hs
  have hleft := stop_le_of_last hs.lt_blockEnd h.apart hbefore
  have hx : xm.place ∉ nodes := by
    intro hmem
    have hless := hs.lt_blockEnd xm.place
    have hle := hleft _ hmem
    omega
  have hsame : SameBuffer xm (xm.append xm.place n) := ⟨rfl, rfl, rfl⟩
  have hlist : (xm.append xm.place n).list = (nodes ++ [xm.place]).headD 0 := by
    rcases h.ends hs with ⟨rfl, hlist⟩ | ⟨xs, a, rfl, hlist, htail⟩
    · simp [Pool.append, hlist]
    · have ha0 : a ≠ 0 := h.ne_zero hs (by simp)
      simp only [Pool.append, if_neg hlist, htail, if_neg ha0]
      rw [h.list]
      cases xs <;> rfl
  have htail : (xm.append xm.place n).tail = (nodes ++ [xm.place]).getLastD 0 := by
    rw [getLastD_concat]
    rfl
  have hfirst : (xm.append xm.place n).first = 0 ∨
      (xm.append xm.place n).first ∈ nodes ++ [xm.place] :=
    h.first.imp id fun hmem => mem_append.2 (.inl hmem)
  have hsplit : Represents xm (nodes ++ []) := by rwa [append_nil]
  have hgrown := hsplit.insert hs hsame (h.spliced_append hs hx n) haligned hlow hn hbefore
    (by intro b hb; cases hb) hroom hlist htail hfirst
  rwa [append_nil] at hgrown

end

end

end SwApi.Memory
