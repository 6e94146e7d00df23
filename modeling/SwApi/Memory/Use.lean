import Mathlib.Data.List.Pairwise
import SwApi.Memory.Runs

/-! A pool in use: the calls, the bytes that the callers store in their blocks, and
`sw_mem_reset`; after each of them the size in use may be asked for. -/
namespace SwApi.Memory
open Library Option

inductive Use where
  | call (call : Call)
  | store (a : Nat) (b : UInt8)
  | reset
deriving DecidableEq

structure Reply where
  p : Nat
  curSize : Int

def Pool.store (xm : Pool) (a : Nat) (b : UInt8) : Pool :=
  { xm with bytes := Function.update xm.bytes a b }

def useStep (s : State) : Use → Option (Reply × State)
  | .call call => (step s call).map fun (p, s') => (⟨p, swMemGetCurSize s'.pool⟩, s')
  | .store a b => some (⟨0, swMemGetCurSize (s.pool.store a b)⟩, ⟨s.pool.store a b, s.live⟩)
  | .reset => some (⟨0, swMemGetCurSize (swMemReset s.pool)⟩, ⟨swMemReset s.pool, []⟩)

/-- The calls stay inside the addresses, and a caller stores into its own block before the
mark. -/
def Proper (s : State) : Use → Prop
  | .call call => Valid s call ∧ InAddresses s call
  | .store a _ => ∃ p ∈ s.live, p ≤ a ∧ a + memCheckSize < p + (s.pool.node (s.pool.nodeOf p)).size
  | .reset => True

instance (s : State) (u : Use) : Decidable (Proper s u) := by
  unfold Proper
  split <;> infer_instance

/-- A pool as `sw_mem_init_ex` leaves it, in a buffer that ends below the last address. -/
def Initial (xm : Pool) : Prop := ∃ (node : Headers) (bytes : Nat → UInt8) (buf : Nat) (size : Int)
    (align : Nat), (∃ k, k < 31 ∧ align = 2 ^ k) ∧ size < 2 ^ 31 ∧
    roundUp align buf + roundUp align poolBytes < 2 ^ 32 ∧ buf + size < 2 ^ 32 ∧
    swMemInitEx node bytes buf size align = some xm

theorem Initial.holds (h : Initial xm) : Holds ⟨xm, []⟩ [] := by
  obtain ⟨node, bytes, buf, size, align, hpower, hint, hstart, hend, hinit⟩ := h
  exact swMemInitEx_holds hpower hint hstart hend hinit

theorem exists_use (guard : State → Use → Prop) [∀ s, DecidablePred (guard s)] (buf : Nat)
    (size : Int) (k : Nat) (uses : List Use) (test : List (Use × Reply) → State → Prop)
    [∀ history s, Decidable (test history s)]
    (hinit : k < 31 ∧ size < 2 ^ 31 ∧ roundUp (2 ^ k) buf + roundUp (2 ^ k) poolBytes < 2 ^ 32 ∧
      buf + size < 2 ^ 32)
    (htest : ((swMemInitEx (fun _ => ⟨0, 0, 0⟩) (fun _ => 0) buf size (2 ^ k)).any fun xm =>
      (exec useStep guard ⟨xm, []⟩ uses).any fun r => decide (test r.1 r.2)) = true) :
    ∃ xm history s, Initial xm ∧ exec useStep guard ⟨xm, []⟩ uses = some (history, s) ∧
      test history s := by
  obtain ⟨xm, hxm, hrest⟩ := (any_eq_true ..).1 htest
  obtain ⟨history, s, he, htest⟩ := exists_of_exec _ _ _ _ test hrest
  exact ⟨xm, history, s, ⟨_, _, buf, size, 2 ^ k, ⟨k, hinit.1, rfl⟩, hinit.2.1, hinit.2.2.1,
    hinit.2.2.2, hxm⟩, he, htest⟩

theorem Holds.store (h : Holds s nodes) (a : Nat) (b : UInt8) :
    Holds ⟨s.pool.store a b, s.live⟩ nodes :=
  ⟨h.sound.congr ⟨rfl, rfl, rfl⟩, h.represents.setBytes _, h.live⟩

theorem Holds.reset (h : Holds s nodes) : Holds ⟨swMemReset s.pool, []⟩ [] := by
  refine ⟨h.sound.congr ⟨rfl, rfl, rfl⟩, ⟨trivial, rfl, rfl, .inl rfl, ?_, ?_, ?_, .nil,
    ?_⟩, by simp⟩ <;>
    · intro a ha
      cases ha

theorem Initial.invariant {guard : State → Use → Prop} (hxm : Initial xm)
    (P : List (Use × Reply) → Pool → List Nat → Prop) (hstart : P [] xm [])
    (hproper : ∀ s use, guard s use → Proper s use)
    (hcall : ∀ {history s nodes call p xm' nodes'}, Holds s nodes → guard s (.call call) →
      Effect s.pool nodes call p xm' nodes' → Holds ⟨xm', s.liveAfter p call⟩ nodes' →
      P history s.pool nodes → P (history ++ [(.call call, ⟨p, swMemGetCurSize xm'⟩)]) xm' nodes')
    (hstore : ∀ {history s nodes a b}, Holds s nodes → P history s.pool nodes →
      P (history ++ [(.store a b, ⟨0, swMemGetCurSize (s.pool.store a b)⟩)])
      (s.pool.store a b) nodes)
    (hreset : ∀ {history s nodes}, Holds s nodes → guard s .reset → P history s.pool nodes →
      P (history ++ [(.reset, ⟨0, swMemGetCurSize (swMemReset s.pool)⟩)]) (swMemReset s.pool) [])
    (hrun : Run useStep guard ⟨xm, []⟩ history s) : ∃ nodes, Holds s nodes ∧
    P history s.pool nodes := by
  apply Run.invariant (fun history s => ∃ nodes, Holds s nodes ∧ P history s.pool nodes) _ _ hrun
  · exact ⟨[], hxm.holds, hstart⟩
  · rintro history s use reply s' ⟨nodes, h, hP⟩ hguard hstep
    cases use with
    | call call =>
      obtain ⟨hvalid, hin⟩ := hproper _ _ hguard
      obtain ⟨p, xm', nodes', heq, he⟩ := h.step hvalid hin
      rw [useStep, heq] at hstep
      cases hstep
      exact ⟨nodes', h.after he, hcall h hguard he (h.after he) hP⟩
    | store a b =>
      cases hstep
      exact ⟨nodes, h.store a b, hstore h hP⟩
    | reset =>
      cases hstep
      exact ⟨[], h.reset, hreset h hguard hP⟩

structure SameFigures (xm xm' : Pool) : Prop where
  buf : xm'.buf = xm.buf
  allocSize : xm'.allocSize = xm.allocSize
  maxpos : xm'.maxpos = xm.maxpos
  bytes : xm'.bytes = xm.bytes

theorem mallocLoop_same (h : mallocLoop size fuel xm a firstlen = some (p, xm')) :
    SameFigures xm xm' := by
  induction fuel generalizing xm a firstlen with
  | zero => cases h
  | succ fuel ih =>
    simp only [mallocLoop] at h
    have hhint : ∀ (c : Prop) [Decidable c], SameFigures xm
      (if c then { xm with first := a } else xm) := by
      intro c _
      split <;> exact ⟨rfl, rfl, rfl, rfl⟩
    split at h
    · cases h
      exact ⟨rfl, rfl, rfl, rfl⟩
    · split at h
      · cases h
        obtain ⟨h₁, h₂, h₃, h₄⟩ := hhint (firstlen ≤ (xm.align - 1 : Nat) + 8)
        exact ⟨h₁, h₂, h₃, h₄⟩
      · obtain ⟨h₁, h₂, h₃, h₄⟩ := hhint (firstlen ≤ (xm.align - 1 : Nat) + 8)
        have hrest := ih h
        exact ⟨hrest.buf.trans h₁, hrest.allocSize.trans h₂, hrest.maxpos.trans h₃,
          hrest.bytes.trans h₄⟩

theorem mallocOld_same (h : mallocOld xm size = some (p, xm')) : SameFigures xm xm' := by
  rw [mallocOld] at h
  split at h
  · split at h
    · cases h
      exact ⟨rfl, rfl, rfl, rfl⟩
    · dsimp only at h
      split at h
      · cases h
        exact ⟨rfl, rfl, rfl, rfl⟩
      · exact mallocLoop_same h
  · exact mallocLoop_same h

theorem Grown.blockEnd_new (h : Grown xm xm' nodes nodes' x n) :
    xm'.blockEnd x = x + xm.lead + n := by
  rw [Pool.blockEnd, Pool.extent, h.new, h.same.lead, Int.toNat_natCast]

theorem Represents.disjoint (h : Represents xm nodes) (ha : a ∈ nodes) (hb : b ∈ nodes)
    (hne : a ≠ b) : xm.blockEnd a ≤ b ∨ xm.blockEnd b ≤ a := by
  have hsymm : Std.Symm fun a b => xm.blockEnd a ≤ b ∨ xm.blockEnd b ≤ a := ⟨fun _ _ => Or.symm⟩
  have hapart : nodes.Pairwise fun a b => xm.blockEnd a ≤ b ∨ xm.blockEnd b ≤ a := h.apart.imp .inl
  exact hapart.forall ha hb hne

theorem Grown.apart (h : Grown xm xm' nodes nodes' x n) (ha : a ∈ nodes) :
    xm.blockEnd a ≤ x ∨ x + xm.lead + n ≤ a := by
  have hne : a ≠ x := fun heq => h.fresh (heq ▸ ha)
  have hapart := h.represents.disjoint ((h.mem a).2 (.inr ha)) ((h.mem x).2 (.inl rfl)) hne
  rwa [h.same.blockEnd (h.old a hne), h.blockEnd_new] at hapart

theorem Grown.small (h : Grown xm xm' nodes nodes' x n) (hs : Sound xm) :
    x + xm.lead + n ≤ xm.limit ∧ n < 2 ^ 31 := by
  have hx := (h.mem x).2 (.inl rfl)
  have hhigh := h.represents.high x hx
  have hlow := h.represents.low x hx
  have hnear := hs.limit_near
  rw [h.blockEnd_new, h.same.limit] at hhigh
  rw [h.same.buf] at hlow
  omega

theorem Grown.accounted {m : Nat} (h : Grown xm xm' nodes nodes' x (m + memCheckSize))
    (hs : Sound xm) (halloc : swMemAlloc xm m = some (x + xm.lead, xm')) :
    ∃ xm₁, SameFigures xm xm₁ ∧ xm' = xm₁.account (x + xm.lead) (m + memCheckSize : Nat) := by
  have hint := (h.small hs).2
  have hge := hs.lead_ge
  have hneg : ¬(m : Int) < 0 := by omega
  obtain ⟨hcheck, -⟩ := int32_marked hint
  rw [swMemAlloc, if_neg hneg, hcheck] at halloc
  obtain ⟨⟨q, xm₁⟩, hold, halloc⟩ := bind_eq_some_iff.1 halloc
  have hsame := mallocOld_same hold
  dsimp only at halloc
  split at halloc
  · cases halloc
    exact ⟨xm₁, hsame, rfl⟩
  · split at halloc
    · have hzero := congrArg Prod.fst (some.inj halloc)
      dsimp only at hzero
      omega
    · obtain ⟨hp, rfl⟩ := Prod.mk.inj (some.inj halloc)
      rw [hp]
      exact ⟨xm₁.append xm₁.top (m + memCheckSize : Nat),
        ⟨hsame.buf, hsame.allocSize, hsame.maxpos, hsame.bytes⟩, rfl⟩

end SwApi.Memory
