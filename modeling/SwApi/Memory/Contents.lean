import SwApi.Memory.Use

/-! What `sw_mem_realloc` does to the contents of the blocks. -/
namespace SwApi.Memory
open Library

variable {xm : Pool}

theorem writeBytes_outside (h : a < p ∨ p + data.length ≤ a) :
    writeBytes bytes p data a = bytes a :=
  if_neg (by omega)

theorem mark_at {m : Nat} (h : x + xm.lead + (m + memCheckSize) ≤ xm.limit) :
    addr ((x + xm.lead : Nat) + (m + memCheckSize : Nat) - memCheckSize) = x + xm.lead + m := by
  have hlimit := limit_lt xm
  exact addr_eq (by omega) (by omega)

/-- The size that was asked for when `p` was last returned. -/
def requested (history : List (Use × Reply)) (p : Nat) : Int :=
  history.foldl (fun size e => match e.1 with
    | .call (.alloc n) => if e.2.p = p then n else size
    | .call (.realloc _ n) => if e.2.p = p then n else size
    | _ => size) 0

theorem Effect.size (he : Effect xm nodes call p xm' nodes') (hs : Sound xm) (ha : a ∈ nodes') :
    (p ≠ a + xm.lead ∧ a ∈ nodes ∧ (xm'.node a).size = (xm.node a).size) ∨
      (p = a + xm.lead ∧ ∃ m : Nat, (call = .alloc m ∨ ∃ r, call = .realloc r m) ∧
        (xm'.node a).size = m + memCheckSize) := by
  have hge := hs.lead_ge
  have hgrown : ∀ {m x : Nat} {xm₁ : Pool} {nodes₁ : List Nat},
      Grown xm xm₁ nodes nodes₁ x (m + memCheckSize) → a ∈ nodes₁ →
      (x ≠ a ∧ a ∈ nodes ∧ (xm₁.node a).size = (xm.node a).size) ∨
        (x = a ∧ (xm₁.node a).size = m + memCheckSize) := by
    intro m x xm₁ nodes₁ h ha
    rcases (h.mem a).1 ha with rfl | hold
    · exact .inr ⟨rfl, h.new⟩
    · have hne : a ≠ x := fun heq => h.fresh (heq ▸ hold)
      exact .inl ⟨hne.symm, hold, h.old a hne⟩
  cases he with
  | refused _ _ h =>
    refine .inl ⟨by omega, ha, ?_⟩
    rw [h.eq]
  | @grown _ m _ _ _ hcall _ h =>
    refine (hgrown h ha).imp (And.imp (by omega) id)
      (And.imp (by omega) fun hsize => ⟨m, ?_, hsize⟩)
    exact hcall.imp id fun hzero => ⟨0, hzero⟩
  | @resized x m _ _ =>
    rw [Pool.resize_size]
    by_cases hax : a = x
    · exact .inr ⟨by rw [hax], m, .inr ⟨_, rfl⟩, by rw [if_pos hax]; rfl⟩
    · exact .inl ⟨by omega, ha, if_neg hax⟩
  | @moved _ _ m _ _ _ _ _ _ _ h _ _ =>
    rw [Pool.release_size]
    refine (hgrown h (by grind)).imp (And.imp (by omega) id) (And.imp (by omega) fun hsize => ?_)
    exact ⟨m, .inr ⟨_, rfl⟩, hsize⟩
  | freed hnodes =>
    rw [Pool.release_size]
    exact .inl ⟨by omega, by grind, rfl⟩

def Sized (history : List (Use × Reply)) (xm : Pool) (nodes : List Nat) : Prop :=
  ∀ a ∈ nodes, (xm.node a).size = requested history (a + xm.lead) + memCheckSize

theorem Effect.sized (he : Effect xm nodes call p xm' nodes') (hs : Sound xm)
    (hrep : Represents xm nodes) (h : Sized history xm nodes) (c : Int) :
    Sized (history ++ [(.call call, ⟨p, c⟩)]) xm' nodes' := by
  intro a ha
  rw [(he.represents hs hrep).1.lead]
  rcases he.size hs ha with ⟨hne, hold, hsize⟩ | ⟨rfl, m, hcall, hsize⟩
  · rw [hsize, h a hold]
    cases call <;> simp [requested, hne]
  · rw [hsize]
    rcases hcall with rfl | ⟨r, rfl⟩ <;> simp [requested]

theorem Effect.contents {m : Nat} (he : Effect s.pool nodes call q xm' nodes')
    (hcall : call = .realloc (x + s.pool.lead) m) (h : Holds s nodes) (hq : q ≠ 0) :
    (∀ i, i + memCheckSize < s.pool.extent x → i < m →
    xm'.bytes (q + i) = s.pool.bytes (x + s.pool.lead + i)) ∧
    ∀ a ∈ nodes, a ≠ x → ∀ i, i < s.pool.extent a →
      xm'.bytes (a + s.pool.lead + i) = s.pool.bytes (a + s.pool.lead + i) := by
  have hge := h.sound.lead_ge
  have hflag : memdbgFlag.length = memCheckSize := rfl
  obtain ⟨hsame, hrep⟩ := he.represents h.sound h.represents
  cases he with
  | refused _ _ _ => exact absurd rfl hq
  | grown hgrow _ _ =>
    subst hcall
    rcases hgrow with hgrow | hgrow
    · cases hgrow
    · injection hgrow
      omega
  | @resized y k hy _ =>
    obtain ⟨hyx, hk⟩ := Call.realloc.inj hcall
    obtain rfl : y = x := by omega
    obtain rfl : k = m := by omega
    have hhigh := hrep.high y hy
    rw [Pool.resize_blockEnd, if_pos rfl] at hhigh
    simp only [Pool.resize, mark_at hhigh]
    refine ⟨fun i _ hi => writeBytes_outside (by omega), ?_⟩
    intro a ha hne i hi
    have hapart := hrep.disjoint ha hy hne
    rw [Pool.resize_blockEnd, Pool.resize_blockEnd, if_neg hne, if_pos rfl, Pool.blockEnd] at hapart
    exact writeBytes_outside (by omega)
  | @moved y z k len xm₁ xs ys hy hlarger halloc hgrown hlow hhigh =>
    obtain ⟨hyx, hk⟩ := Call.realloc.inj hcall
    obtain rfl : y = x := by omega
    obtain rfl : k = m := by omega
    -- everything is written into the new block, apart from the others
    have hkept : ∀ a ∈ nodes, ∀ i, i < s.pool.extent a →
        xm₁.bytes (a + s.pool.lead + i) = s.pool.bytes (a + s.pool.lead + i) := by
      intro a ha i hi
      have hapart := hgrown.apart ha
      obtain ⟨xm₂, hfigures, rfl⟩ := hgrown.accounted h.sound halloc
      rw [Pool.blockEnd] at hapart
      simp only [Pool.account, mark_at (hgrown.small h.sound).1, hfigures.bytes]
      exact writeBytes_outside (by omega)
    simp only [Pool.release]
    constructor
    · intro i hi him
      rw [copyBytes, if_pos (by omega), Nat.add_sub_cancel_left]
      exact hkept y hy i (by omega)
    · intro a ha _ i hi
      have hapart := hgrown.apart ha
      rw [Pool.blockEnd] at hapart
      rw [copyBytes, if_neg (by omega)]
      exact hkept a ha i hi
  | freed _ => cases hcall

theorem Effect.null (he : Effect xm nodes call 0 xm' nodes') (hs : Sound xm)
    (hcall : call = .realloc p n) : xm' = { xm with first := xm'.first } := by
  have hge := hs.lead_ge
  generalize hq : 0 = q at he
  cases he with
  | refused _ _ h => exact h.eq
  | grown | resized | moved => omega
  | freed => cases hcall

/-- In every use a reallocation that returns a block keeps the bytes that were asked for as far
as they fit and all other blocks, and one that returns NULL changes nothing but the hint. -/
theorem realloc_keeps_contents {s : State} {history : List (Use × Reply)} {p : Nat} {n : Int}
    (hxm : Initial xm) (hrun : Run useStep Proper ⟨xm, []⟩ history s)
    (hp : p ∈ s.live) (hvalid : Valid s (.realloc p n)) (hin : InAddresses s (.realloc p n)) :
    ∃ q s', step s (.realloc p n) = some (q, s') ∧ (∃ nodes, Intact s' nodes) ∧
      (q ≠ 0 → (s'.pool.node (s'.pool.nodeOf q)).size = n + memCheckSize ∧
        (∀ i : Nat, i < min (requested history p) n →
        s'.pool.bytes (q + i) = s.pool.bytes (p + i)) ∧
        ∀ r ∈ s.live, r ≠ p → r ∈ s'.live ∧ ∀ i : Nat, i < requested history r →
          s'.pool.bytes (r + i) = s.pool.bytes (r + i)) ∧
      (q = 0 → s' = ⟨{ s.pool with first := s'.pool.first }, s.live⟩) := by
  have hinv : ∃ nodes, Holds s nodes ∧ Sized history s.pool nodes := by
    apply hxm.invariant Sized _ (fun _ _ => id) _ _ _ hrun
    · intro a ha
      cases ha
    · intro history s nodes call p xm' nodes' h _ he _ hsized
      exact he.sized h.sound h.represents hsized _
    · intro history s nodes a b _ hsized c hc
      rw [requested, List.foldl_append]
      exact hsized c hc
    · intro history s nodes _ _ _ a ha
      cases ha
  obtain ⟨nodes, h, hsized⟩ := hinv
  obtain ⟨q, xm', nodes', hstep, he⟩ := h.step hvalid hin
  obtain ⟨x, hx, rfl⟩ := (h.live p).1 hp
  obtain ⟨m, rfl⟩ := Int.eq_ofNat_of_zero_le hvalid.2.1
  have hextent : ∀ a ∈ nodes, (s.pool.extent a : Int) = requested history
    (a + s.pool.lead) + memCheckSize := by
    intro a ha
    rw [← h.represents.size_eq ha]
    exact hsized a ha
  have hnext := h.after he
  refine ⟨q, _, hstep, ⟨nodes', hnext.intact⟩, ?_, ?_⟩
  · intro hq
    obtain ⟨hbytes, hothers⟩ := he.contents rfl h hq
    have hlive : s.liveAfter q (.realloc (x + s.pool.lead) m) = s.live.filter
      (· ≠ x + s.pool.lead) ++ [q] :=
      if_neg hq
    refine ⟨?_, fun i hi => hbytes i ?_ ?_, ?_⟩
    · obtain ⟨a, ha, hqa⟩ := (hnext.live q).1 (by simp [hlive])
      have hback := hnext.nodeOf_eq ha
      dsimp only at hqa hback ⊢
      rw [hqa, hback]
      rw [(he.represents h.sound h.represents).1.lead] at hqa
      rcases he.size h.sound ha with ⟨hne, -⟩ | ⟨-, k, hcall, hsize⟩
      · exact absurd hqa hne
      · rcases hcall with hcall | ⟨r, hcall⟩
        · cases hcall
        · rw [hsize, (Call.realloc.inj hcall).2]
    · have := hextent x hx
      omega
    · omega
    · intro r hr hne
      refine ⟨by simp [hlive, hr, hne], ?_⟩
      obtain ⟨a, ha, rfl⟩ := (h.live r).1 hr
      refine fun i hi => hothers a ha (by rintro rfl; exact hne rfl) i ?_
      have := hextent a ha
      omega
  · rintro rfl
    rw [State.mk.injEq]
    exact ⟨he.null h.sound rfl, rfl⟩

/-- A block is moved with its contents, and the next one keeps its own. -/
theorem realloc_keeps_contents_moved : ∃ xm history s q s', Initial xm ∧
    exec useStep Proper ⟨xm, []⟩ [.call (.alloc 2), .call (.alloc 1), .store 0x1048 7,
    .store 0x1049 8,
      .store 0x1070 9] = some (history, s) ∧ step s (.realloc 0x1048 60) = some (q, s') ∧
      q = 0x1098 ∧
    (∀ i : Nat, i < min (requested history 0x1048) 60 →
    s'.pool.bytes (q + i) = s.pool.bytes (0x1048 + i)) := by
  obtain ⟨xm, history, s, hxm, he, hlive, hvalid, hin, hq⟩ := exists_use Proper 0x1002 0x400 3
    [.call (.alloc 2), .call (.alloc 1), .store 0x1048 7, .store 0x1049 8, .store 0x1070 9]
    (fun _ s => 0x1048 ∈ s.live ∧ Valid s (.realloc 0x1048 60) ∧
      InAddresses s (.realloc 0x1048 60) ∧
      (step s (.realloc 0x1048 60)).map Prod.fst = some 0x1098) (by decide) (by decide +kernel)
  obtain ⟨q, s', hstep, -, hmoved, -⟩ := realloc_keeps_contents hxm (.of_exec he) hlive hvalid hin
  rw [hstep] at hq
  cases hq
  exact ⟨xm, history, s, _, s', hxm, he, hstep, rfl, (hmoved (by decide)).2.1⟩

/-- A block of 16 bytes grows in its place to two gigabytes in a pool of four kilobytes: its end
passes the last address. -/
theorem huge_realloc_has_no_room : ∃ xm history s, Initial xm ∧
    exec useStep Proper ⟨xm, []⟩ [.call (.alloc 16)] = some (history, s) ∧
    0x90000038 ∈ s.live ∧ Valid s (.realloc 0x90000038 0x7ffffff0) ∧
    ∃ r ∈ step s (.realloc 0x90000038 0x7ffffff0), r.1 = 0x90000038 ∧
      (r.2.pool.buf : Int) + r.2.pool.size < 0x90000038 + 0x7ffffff0 :=
  exists_use _ 0x90000000 0x1000 2 _ _ (by decide) (by decide +kernel)

end SwApi.Memory
