import SwApi.Library.Transition
import SwApi.Memory.Calls

/-! Runs of a pool from `sw_mem_init_ex` on, together with the blocks that are live. -/
namespace SwApi.Memory
open Library List Option

structure State where
  pool : Pool
  live : List Nat

def step (s : State) : Call → Option (Nat × State)
  | .alloc size => (swMemAlloc s.pool size).map fun (p, xm) =>
      (p, ⟨xm, if p = 0 then s.live else s.live ++ [p]⟩)
  | .realloc p size => (swMemRealloc s.pool p size).map fun (q, xm) =>
      (q, ⟨xm, if q = 0 then s.live else s.live.filter (· ≠ p) ++ [q]⟩)
  | .free p => some (0, ⟨swMemFree s.pool p, s.live.filter (· ≠ p)⟩)

def Valid (s : State) : Call → Prop
  | .alloc size => 0 ≤ size ∧ size + memCheckSize < 2 ^ 31
  | .realloc p size => (p = 0 ∨ p ∈ s.live) ∧ 0 ≤ size ∧ size + memCheckSize < 2 ^ 31
  | .free p => p ∈ s.live

instance (s : State) (call : Call) : Decidable (Valid s call) := by
  unfold Valid
  split <;> infer_instance

def State.nextOf (s : State) (p : Nat) : Nat := (s.pool.node (s.pool.nodeOf p)).next

def State.GapFor (s : State) (n : Nat) : Prop :=
  (s.pool.first = 0 ∧ s.pool.list ≠ 0 ∧ s.pool.buf + s.pool.lead + n ≤ s.pool.list) ∨
    ∃ p ∈ s.live, s.pool.first ≤ s.pool.nodeOf p ∧ s.nextOf p ≠ 0 ∧
      s.pool.GapFits (s.pool.nodeOf p) (s.nextOf p) n
  deriving Decidable

/-- A new block of `n` bytes goes into a gap, or would end at an address behind the
last block. -/
def State.RoomFor (s : State) (n : Nat) : Prop :=
  s.GapFor n ∨ s.pool.place + s.pool.lead + n < 2 ^ 32
  deriving Decidable

/-- The block of `p` is large enough, or it would end at an address with `n` bytes; it
then grows up to the next header or the end of the pool, or goes to another place. -/
def State.ResizeFor (s : State) (p n : Nat) : Prop :=
  n ≤ s.pool.extent (s.pool.nodeOf p) ∨ (p + n < 2 ^ 32 ∧
    (p + n ≤ (if s.nextOf p ≠ 0 then s.nextOf p else s.pool.limit) ∨ s.RoomFor n))
  deriving Decidable

/-- No sum that the call compares with the end of the pool exceeds the addresses. -/
def InAddresses (s : State) : Call → Prop
  | .alloc size => s.RoomFor (size.toNat + memCheckSize)
  | .realloc p size =>
      (p = 0 → s.RoomFor (size.toNat + memCheckSize)) ∧
        (p ≠ 0 → s.ResizeFor p (size.toNat + memCheckSize))
  | .free _ => True

instance (s : State) (call : Call) : Decidable (InAddresses s call) := by
  unfold InAddresses
  split <;> infer_instance

structure Holds (s : State) (nodes : List Nat) : Prop where
  sound : Sound s.pool
  represents : Represents s.pool nodes
  live : ∀ p, p ∈ s.live ↔ ∃ a ∈ nodes, p = a + s.pool.lead

theorem Holds.nodeOf_eq (h : Holds s nodes) (ha : a ∈ nodes) :
    s.pool.nodeOf (a + s.pool.lead) = a := by
  apply h.sound.nodeOf_eq (h.represents.aligned a ha)
  have hhigh := h.represents.end_le ha
  have hlimit := limit_lt s.pool
  omega

theorem Holds.room (h : Holds s nodes) (hroom : s.RoomFor n) : s.pool.Room nodes n := by
  refine hroom.imp ?_ id
  rintro (⟨hfirst, hlist, hfits⟩ | ⟨p, hp, hle, hnext, hfits⟩)
  · refine .inl ⟨hfirst, s.pool.list, ?_, hfits⟩
    have hhead := h.represents.list
    cases nodes with
    | nil => exact absurd hhead hlist
    | cons b ys =>
      rw [hhead]
      rfl
  · obtain ⟨a, ha, rfl⟩ := (h.live p).1 hp
    rw [State.nextOf, h.nodeOf_eq ha] at hnext hfits
    rw [h.nodeOf_eq ha] at hle
    obtain ⟨xs, ys, rfl⟩ := append_of_mem ha
    have hlink := h.represents.at.2
    cases ys with
    | nil => exact absurd hlink hnext
    | cons b ys =>
      rw [hlink] at hfits
      exact .inr ⟨xs, a, b, ys, rfl, hle, hfits⟩

theorem swMemInitEx_holds {node : Headers} {bytes : Nat → UInt8} {buf align : Nat} {size : Int}
    (hpower : ∃ k, k < 31 ∧ align = 2 ^ k) (hint : size < 2 ^ 31)
    (hstart : roundUp align buf + roundUp align poolBytes < 2 ^ 32) (hend : buf + size < 2 ^ 32)
    (hinit : swMemInitEx node bytes buf size align = some xm) : Holds ⟨xm, []⟩ [] := by
  obtain ⟨k, hk, rfl⟩ := hpower
  have hpow : 0 < 2 ^ k := Nat.two_pow_pos k
  have hbig : 2 ^ k ≤ 2 ^ 30 := Nat.pow_le_pow_right (by decide) (by omega)
  have hpool : poolBytes = 36 := rfl
  have hle := le_roundUp (x := buf) hpow
  have hless := roundUp_lt (x := buf) hpow
  have hhead := le_roundUp (x := poolBytes) hpow
  have hheadless := roundUp_lt (x := poolBytes) hpow
  have hstep := add_le_of_lt (dvd_roundUp (2 ^ k) buf) (Nat.pow_dvd_pow 2 (by omega : k ≤ 32))
    (by omega)
  rw [swMemInitEx] at hinit
  split at hinit
  · cases hinit
  · rename_i hargs
    have hsum : ((2 ^ k : Nat) : Int) - 1 + buf = ((buf + (2 ^ k - 1) : Nat) : Int) := by omega
    have hxm : addr (((2 ^ k : Nat) : Int) - 1 + buf) / 2 ^ k * 2 ^ k = roundUp (2 ^ k) buf := by
      rw [addr_eq hsum (by omega)]
      rfl
    have hbuf : alignPtr (2 ^ k - 1) (roundUp (2 ^ k) buf) poolBytes =
        roundUp (2 ^ k) buf + roundUp (2 ^ k) poolBytes :=
      (alignDown_addr (k := k) (by omega) (dvd_roundUp ..) _).trans (Nat.mod_eq_of_lt hstart)
    have hrest : int32 (buf + size - (roundUp (2 ^ k) buf + roundUp (2 ^ k) poolBytes : Nat)) =
        buf + size - (roundUp (2 ^ k) buf + roundUp (2 ^ k) poolBytes : Nat) :=
      int32_eq (by omega) (by omega)
    have hpos : 0 < roundUp (2 ^ k) buf + roundUp (2 ^ k) poolBytes := by omega
    have hsmall : buf + size - (roundUp (2 ^ k) buf + roundUp (2 ^ k) poolBytes : Nat) < 2 ^
      31 := by
      omega
    simp only [hxm, hbuf, hrest] at hinit
    cases hinit
    refine ⟨⟨⟨k, hk, rfl⟩, Nat.dvd_add (dvd_roundUp ..) (dvd_roundUp ..), hpos, ?_, hsmall⟩, ?_, ?_⟩
    · have hlimit : addr (buf + size) = (buf + size).toNat := addr_eq (by omega) (by omega)
      simp only [Pool.limit, add_sub_cancel, hlimit]
      omega
    · refine ⟨trivial, rfl, rfl, .inl rfl, ?_, ?_, ?_, List.Pairwise.nil, ?_⟩ <;>
        · intro a ha
          cases ha
    · intro p
      simp

def State.liveAfter (s : State) (p : Nat) : Call → List Nat
  | .alloc _ => if p = 0 then s.live else s.live ++ [p]
  | .realloc r _ => if p = 0 then s.live else s.live.filter (· ≠ r) ++ [p]
  | .free r => s.live.filter (· ≠ r)

theorem Holds.liveAfter (h : Holds s nodes) (he : Effect s.pool nodes call p xm' nodes') (q : Nat) :
    q ∈ s.liveAfter p call ↔ ∃ a ∈ nodes', q = a + s.pool.lead := by
  have hge := h.sound.lead_ge
  cases he with
  | refused hcall _ _ => rcases hcall with rfl | ⟨p, rfl⟩ <;> exact h.live q
  | @grown _ m x _ _ hcall _ hgrown =>
    have hx : x + s.pool.lead ≠ 0 := by omega
    have hzero : ∀ a ∈ nodes, a + s.pool.lead ≠ 0 := by omega
    rcases hcall with rfl | rfl <;>
    · simp only [State.liveAfter, if_neg hx, mem_append, mem_singleton, mem_filter,
        decide_eq_true_eq, h.live, hgrown.mem]
      grind
  | @resized x m hx _ =>
    have hx0 : x + s.pool.lead ≠ 0 := by omega
    simp only [State.liveAfter, if_neg hx0, mem_append, mem_singleton, mem_filter,
      decide_eq_true_eq, h.live]
    grind
  | @moved x y m len _ xs ys hx _ _ hgrown _ _ =>
    have hy : y + s.pool.lead ≠ 0 := by omega
    have hmem := hgrown.mem
    have hfresh := hgrown.fresh
    have hnodup := nodup_middle.1 (hgrown.represents.nodup (h.sound.congr hgrown.same))
    simp only [State.liveAfter, if_neg hy, mem_append, mem_filter, decide_eq_true_eq,
      nodup_cons, mem_cons, h.live] at hmem hnodup ⊢
    grind
  | @freed x xs ys hnodes =>
    subst hnodes
    have hnodup := nodup_middle.1 (h.represents.nodup h.sound)
    simp only [State.liveAfter, mem_filter, decide_eq_true_eq, nodup_cons, mem_append,
      mem_cons, h.live] at hnodup ⊢
    grind

theorem Holds.after (h : Holds s nodes) (he : Effect s.pool nodes call p xm' nodes') :
    Holds ⟨xm', s.liveAfter p call⟩ nodes' := by
  obtain ⟨hsame, hrep⟩ := he.represents h.sound h.represents
  refine ⟨h.sound.congr hsame, hrep, ?_⟩
  rw [hsame.lead]
  exact h.liveAfter he

theorem Holds.step (h : Holds s nodes) {call : Call} (hvalid : Valid s call)
    (hin : InAddresses s call) : ∃ p xm' nodes', step s call = some (p, ⟨xm', s.liveAfter p call⟩) ∧
      Effect s.pool nodes call p xm' nodes' := by
  cases call with
  | alloc size =>
    obtain ⟨m, rfl⟩ := Int.eq_ofNat_of_zero_le hvalid.1
    have hint := hvalid.2
    obtain ⟨p, xm', nodes', heq, he⟩ := swMemAlloc_effect (m := m) h.sound h.represents (.inl rfl)
      (by omega) (h.room hin)
    exact ⟨p, xm', nodes', by rw [Memory.step, heq]; rfl, he⟩
  | realloc p size =>
    obtain ⟨hp, hsize, hint⟩ := hvalid
    obtain ⟨m, rfl⟩ := Int.eq_ofNat_of_zero_le hsize
    by_cases hzero : p = 0
    · subst hzero
      obtain ⟨p, xm', nodes', heq, he⟩ := swMemAlloc_effect (m := m) h.sound h.represents (.inr rfl)
        (by omega) (h.room (hin.1 rfl))
      exact ⟨p, xm', nodes', by rw [Memory.step, swMemRealloc, if_pos rfl, heq]; rfl, he⟩
    · obtain ⟨x, hx, rfl⟩ := (h.live p).1 (hp.resolve_left hzero)
      have hroom := hin.2 hzero
      rw [Int.toNat_natCast, State.ResizeFor, State.nextOf, h.nodeOf_eq hx] at hroom
      obtain ⟨q, xm', nodes', heq, he⟩ := swMemRealloc_effect h.sound h.represents hx (by omega)
        (hroom.imp id (And.imp id (Or.imp id h.room)))
      exact ⟨q, xm', nodes', by rw [Memory.step, heq]; rfl, he⟩
  | free p =>
    obtain ⟨x, hx, rfl⟩ := (h.live p).1 hvalid
    obtain ⟨xs, ys, rfl⟩ := append_of_mem hx
    exact ⟨0, _, _, by rw [Memory.step, h.represents.free_eq h.sound hx]; rfl, .freed rfl⟩

def Pool.regions (xm : Pool) (a : Nat) : List (Int × Int) :=
  [(a, a + nodeBytes), (xm.user a, xm.user a + (xm.node a).size)]

/-- The list `nodes` of the pool is in the order of the addresses with links that agree,
all headers and blocks lie one behind the other in the buffer, and the live pointers are
the aligned blocks of the nodes. -/
structure Intact (s : State) (nodes : List Nat) : Prop where
  increasing : nodes.Pairwise (· < ·)
  linked : Linked (fun a => (s.pool.node a).prev) (fun a => (s.pool.node a).next) 0 nodes 0
  list : s.pool.list = nodes.headD 0
  tail : s.pool.tail = nodes.getLastD 0
  first : s.pool.first = 0 ∨ s.pool.first ∈ nodes
  inside : ∀ a ∈ nodes, ∀ r ∈ s.pool.regions a,
    s.pool.buf ≤ r.1 ∧ r.1 < r.2 ∧ r.2 ≤ s.pool.buf + s.pool.size
  apart : (nodes.flatMap s.pool.regions).Pairwise fun r t => r.2 ≤ t.1
  live : ∀ p, p ∈ s.live ↔ ∃ a ∈ nodes, p = s.pool.user a
  returned : ∀ a ∈ nodes, s.pool.align ∣ s.pool.user a ∧ s.pool.nodeOf (s.pool.user a) = a

theorem Holds.regions_within (h : Holds s nodes) (ha : a ∈ nodes) :
    ∀ r ∈ s.pool.regions a, a ≤ r.1 ∧ r.1 < r.2 ∧ r.2 ≤ s.pool.blockEnd a := by
  have hge := h.sound.lead_ge
  have hbytes : nodeBytes = 20 := rfl
  have hsized := h.represents.sized a ha
  have hcheck : memCheckSize = 8 := rfl
  intro r hr
  rw [Pool.regions, h.represents.user_eq h.sound ha, mem_cons, mem_singleton] at hr
  rw [h.represents.size_eq ha] at hr hsized
  rw [Pool.blockEnd]
  rcases hr with rfl | rfl
  · dsimp only
    omega
  · dsimp only
    omega

theorem Holds.intact (h : Holds s nodes) : Intact s nodes := by
  have hrep := h.represents
  have huser : ∀ a ∈ nodes, s.pool.user a = a + s.pool.lead := fun a ha => hrep.user_eq h.sound ha
  refine ⟨hrep.increasing h.sound, hrep.linked, hrep.list, hrep.tail, hrep.first, ?_, ?_, ?_, ?_⟩
  · intro a ha r hr
    have hwithin := h.regions_within ha r hr
    have hlow := hrep.low a ha
    have hhigh := hrep.high a ha
    have hfinish := h.sound.finish
    omega
  · rw [pairwise_flatMap]
    constructor
    · intro a ha
      have hge : nodeBytes ≤ s.pool.lead := h.sound.lead_ge
      rw [Pool.regions, huser a ha, pairwise_pair]
      dsimp only
      omega
    · apply hrep.apart.imp_of_mem
      intro a b ha hb hab r hr t ht
      have hr := h.regions_within ha r hr
      have ht := h.regions_within hb t ht
      omega
  · intro p
    rw [h.live]
    grind
  · intro a ha
    rw [huser a ha]
    exact ⟨Nat.dvd_add (hrep.aligned a ha) (Sound.dvd_lead s.pool), h.nodeOf_eq ha⟩

/-- A run whose calls stay inside the addresses keeps the pool intact, and the next such
call returns. -/
theorem run_intact {node : Headers} {bytes : Nat → UInt8} {buf align : Nat} {size : Int} {xm : Pool}
    {history : List (Call × Nat)} (hpower : ∃ k, k < 31 ∧ align = 2 ^ k) (hint : size < 2 ^ 31)
    (hstart : roundUp align buf + roundUp align poolBytes < 2 ^ 32) (hend : buf + size < 2 ^ 32)
    (hinit : swMemInitEx node bytes buf size align = some xm)
    (hrun : Run step (fun s call => Valid s call ∧ InAddresses s call) ⟨xm, []⟩ history s) :
    (∃ nodes, Intact s nodes) ∧ ∀ call, Valid s call → InAddresses s call →
    (step s call).isSome := by
  have hholds : ∃ nodes, Holds s nodes := by
    apply Run.invariant (fun _ s => ∃ nodes, Holds s nodes) _ _ hrun
    · exact ⟨[], swMemInitEx_holds hpower hint hstart hend hinit⟩
    · rintro history s call p s' ⟨nodes, h⟩ ⟨hvalid, hin⟩ hstep
      obtain ⟨p', xm', nodes', heq, he⟩ := h.step hvalid hin
      cases some.inj (hstep.symm.trans heq)
      exact ⟨nodes', h.after he⟩
  obtain ⟨nodes, h⟩ := hholds
  refine ⟨⟨nodes, h.intact⟩, ?_⟩
  intro call hvalid hin
  obtain ⟨p, xm', nodes', heq, -⟩ := h.step hvalid hin
  rw [heq]
  rfl

/-- Blocks behind the last one, before the first one and in a gap; one grows and shrinks in
its place, one moves, and one finds no room. -/
theorem run_intact_moved : ∃ (xm : Pool) (history : List (Call × Nat)) (s : State),
    swMemInitEx (fun _ => ⟨0, 0, 0⟩) (fun _ => 0) 0x1002 0x400 8 = some xm ∧
    exec step (fun s call => Valid s call ∧ InAddresses s call) ⟨xm, []⟩
      [.alloc 40, .alloc 40, .alloc 8, .free 0x1048, .alloc 0, .realloc 0x1048 16,
       .realloc 0x1090 60, .alloc 5, .realloc 0x1048 2, .realloc 0 1000, .free 0x10d8] =
       some (history, s) ∧
    history.map Prod.snd = [0x1048, 0x1090, 0x10d8, 0, 0x1048, 0x1048, 0x1100, 0x1078, 0x1048, 0,
    0] ∧ ∃ nodes, Intact s nodes := by
  refine exists_exec_from (fun _ history _ => history.map Prod.snd =
    [0x1048, 0x1090, 0x10d8, 0, 0x1048, 0x1048, 0x1100, 0x1078, 0x1048, 0, 0])
      (by decide +kernel) ?_
  intro xm history s hinit he hreturned
  exact ⟨hreturned,
    (run_intact ⟨3, by decide, rfl⟩ (by decide) (by decide) (by decide) hinit (.of_exec he)).1⟩

/-- Two gigabytes are found in a pool of four kilobytes: the sum that is compared with the
end of the pool passes the last address and begins again at 0. -/
theorem huge_block_leaves_pool : ∃ (xm : Pool) (history : List (Call × Nat)) (s : State),
    swMemInitEx (fun _ => ⟨0, 0, 0⟩) (fun _ => 0) 0x90000000 0x1000 4 = some xm ∧
    exec step Valid ⟨xm, []⟩ [.alloc 0x7ffffff0] = some (history, s) ∧
    history.map Prod.snd = [0x90000038] ∧ ¬∃ nodes, Intact s nodes := by
  refine exists_exec_from (fun _ history s => history.map Prod.snd = [0x90000038] ∧
    s.live = [0x90000038] ∧
    s.pool.nodeOf 0x90000038 = 0x90000024 ∧ (s.pool.node 0x90000024).size = 0x7ffffff8 ∧
      (s.pool.buf : Int) + s.pool.size = 0x90001000) (by decide +kernel) ?_
  rintro xm history s - - ⟨hreturned, hlive, hnode, hsize, hend⟩
  refine ⟨hreturned, ?_⟩
  rintro ⟨nodes, hintact⟩
  obtain ⟨a, ha, hp⟩ := (hintact.live 0x90000038).1 (by rw [hlive]; exact mem_singleton_self _)
  have hback := (hintact.returned a ha).2
  rw [← hp] at hback
  replace hback := hnode.symm.trans hback
  subst hback
  have hinside := hintact.inside _ ha (s.pool.user 0x90000024, s.pool.user 0x90000024 + 0x7ffffff8)
    (by rw [← hsize]; simp [Pool.regions])
  rw [← hp] at hinside
  dsimp only at hinside hend
  omega

end SwApi.Memory
