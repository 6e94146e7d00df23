import SwApi.HttpServer.Handles

/-! The rounds of `swiot_handle`: whom one call serves, and when it closes a connection that is
idle. -/
namespace SwApi.HttpServer
open Library List Option

/-- What the socket does in a round, and the memory for a longer packet. -/
structure Round where
  sending : Sending
  receiving : Receiving
  fresh : Option Bytes
deriving DecidableEq

/-- The connection of a round, and whether it is removed. -/
def Server.round (s : Server) (now : Int) (r : Round) : Option ((Nat × Bool) × Server) := do
  match ← s.exchange now r.sending r.receiving with
  | (.removed _ skt _, s) => some ((skt, true), s)
  | (.exchanged skt _, s) => (s.parse r.fresh).map fun (_, s) => ((skt, false), s)
  | _ => none

def Server.handleLoop (now : Int) : Server → List Round → Option (List (Nat × Bool) × Server)
  | s, [] => (s.step .leave).map fun (_, s) => ([], s)
  | s, r :: rounds => do
      let (visit, s) ← s.round now r
      let (visits, s) ← s.handleLoop now rounds
      some (visit :: visits, s)

/-- One call, with as many rounds as the loop makes. -/
def Server.swiotHandle (s : Server) (now : Int) (rounds : List Round) :
    Option (List (Nat × Bool) × Server) := do
  let (_, s) ← s.step .enter
  s.handleLoop now rounds

/-- The connection stays in the list. -/
def Round.Keeps (r : Round) (now : Int) (c : Connection) : Prop :=
  ((c.exchange now r.sending r.receiving).bind Prod.snd).isSome = true
  deriving Decidable

/-- The rounds over a list: behind a removed connection one is passed over. -/
inductive Visits (now : Int) : List Connection → List Round → List (Nat × Bool) → Prop where
  | done : Visits now [] [] []
  | stays {r : Round} {c : Connection} : r.Keeps now c → Visits now rest rounds visits →
      Visits now (c :: rest) (r :: rounds) ((c.client.skt, false) :: visits)
  | last : Visits now [c] [r] [(c.client.skt, true)]
  | passes {r : Round} {c d : Connection} : ¬r.Keeps now c → Visits now rest rounds visits →
      Visits now (c :: d :: rest) (r :: rounds) ((c.client.skt, true) :: visits)

theorem Visits.mem (h : Visits now clients rounds visits) (hx : x ∈ visits.map Prod.fst) :
    x ∈ clients.map (·.client.skt) := by
  induction h with
  | done | last => exact hx
  | stays _ _ ih | passes _ _ ih =>
    simp only [map_cons, mem_cons] at hx ⊢
    tauto

theorem Visits.once_iff (h : Visits now clients rounds visits)
    (hnodup : (clients.map (·.client.skt)).Nodup) :
    (∀ x ∈ clients.map (·.client.skt), (visits.map Prod.fst).count x = 1) ↔
      ∀ p ∈ clients.dropLast.zip rounds, p.2.Keeps now p.1 := by
  induction h with
  | done | last => simp
  | @stays rest rounds visits r c hkeeps hrest ih =>
    rw [map_cons] at hnodup
    obtain ⟨hx, hnodup⟩ := nodup_cons.1 hnodup
    have hzero : (visits.map Prod.fst).count c.client.skt = 0 :=
      count_eq_zero.2 fun hmem => hx (hrest.mem hmem)
    have hcount : ∀ z ∈ rest.map (·.client.skt),
        (c.client.skt :: visits.map Prod.fst).count z = 1 ↔ (visits.map Prod.fst).count z = 1 := by
      intro z hz
      rw [count_cons_of_ne (ne_of_mem_of_not_mem hz hx).symm]
    have hzip : (∀ p ∈ (c :: rest).dropLast.zip (r :: rounds), p.2.Keeps now p.1) ↔
        ∀ p ∈ rest.dropLast.zip rounds, p.2.Keeps now p.1 := by
      cases rest with
      | nil => simp
      | cons d rest =>
        rw [dropLast_cons_cons, zip_cons_cons, forall_mem_cons]
        exact and_iff_right hkeeps
    rw [hzip, ← ih hnodup, map_cons, map_cons, forall_mem_cons, count_cons_self, hzero,
      forall₂_congr hcount]
    exact and_iff_right rfl
  | @passes rest rounds visits r c d hgone hrest ih =>
    rw [map_cons, map_cons] at hnodup
    obtain ⟨hx, hnodup⟩ := nodup_cons.1 hnodup
    refine iff_of_false (fun h => ?_) fun h => hgone (h (c, r) mem_cons_self)
    have hy : d.client.skt ∈ ((c.client.skt, true) :: visits).map Prod.fst :=
      count_pos_iff.1 (h d.client.skt (by simp) ▸ Nat.one_pos)
    rcases mem_cons.1 hy with heq | hy
    · exact hx (heq ▸ mem_cons_self)
    · exact (nodup_cons.1 hnodup).1 (hrest.mem hy)

theorem Server.round_inv {s : Server} {gone : Bool} (hcursor : s.cursor = some i)
    (h : s.round now r = some ((x, gone), s')) :
    ∃ c rest, s.clients.drop i = c :: rest ∧ x = c.client.skt ∧ (r.Keeps now c ↔ gone = false) ∧
      s'.cursor = some (i + 1) ∧ s'.clients.drop (i + 1) = if gone then rest.tail else rest := by
  obtain ⟨⟨outcome, s₁⟩, hexchange, h⟩ := bind_eq_some_iff.1 h
  simp only [Server.exchange, hcursor, bind_eq_bind, bind_some] at hexchange
  obtain ⟨c, hc, hexchange⟩ := bind_eq_some_iff.1 hexchange
  obtain ⟨⟨events, next⟩, hnext, hexchange⟩ := bind_eq_some_iff.1 hexchange
  obtain ⟨hi, rfl⟩ := List.getElem?_eq_some_iff.1 hc
  refine ⟨s.clients[i], s.clients.drop (i + 1), drop_eq_getElem_cons hi, ?_⟩
  rw [Round.Keeps, hnext, bind_some]
  cases next with
  | none =>
    cases hexchange
    cases h
    refine ⟨rfl, by simp, rfl, ?_⟩
    rw [if_pos rfl, Server.remove, eraseIdx_eq_take_drop_succ, drop_append, length_take_of_le hi.le,
      tail_drop]
    simp
  | some c' =>
    cases hexchange
    obtain ⟨⟨outcome, s₂⟩, hparse, heq⟩ := map_eq_some_iff.1 h
    cases heq
    simp only [Server.parse, bind_eq_bind, bind_some] at hparse
    obtain ⟨c₁, -, hparse⟩ := bind_eq_some_iff.1 hparse
    obtain ⟨⟨events, next⟩, -, hparse⟩ := bind_eq_some_iff.1 hparse
    cases next with
    | none => cases hparse
    | some c₂ =>
      cases hparse
      exact ⟨rfl, by simp, rfl, (drop_set_of_lt (Nat.lt_succ_self i)).trans
        (drop_set_of_lt (Nat.lt_succ_self i))⟩

theorem Server.handleLoop_visits {s : Server} (hcursor : s.cursor = some i)
    (h : s.handleLoop now rounds = some (visits, s')) :
    Visits now (s.clients.drop i) rounds visits := by
  induction rounds generalizing s i visits with
  | nil =>
    obtain ⟨⟨outcome, s₁⟩, hleave, heq⟩ := map_eq_some_iff.1 h
    cases heq
    rw [Server.step] at hleave
    split at hleave
    · rename_i hend
      obtain ⟨j, hj, hle⟩ := hend
      cases hcursor.symm.trans hj
      rw [drop_eq_nil_of_le hle]
      exact .done
    · cases hleave
  | cons r rounds ih =>
    obtain ⟨⟨⟨x, gone⟩, s₁⟩, hround, h⟩ := bind_eq_some_iff.1 h
    obtain ⟨⟨visits, s₂⟩, hloop, h⟩ := bind_eq_some_iff.1 h
    cases h
    obtain ⟨c, rest, hdrop, rfl, hkeeps, hcursor₁, hdrop₁⟩ := Server.round_inv hcursor hround
    have hvisits := ih hcursor₁ hloop
    rw [hdrop₁] at hvisits
    rw [hdrop]
    cases gone with
    | false => exact .stays (hkeeps.2 rfl) hvisits
    | true =>
      cases rest with
      | nil =>
        cases hvisits
        exact .last
      | cons d rest => exact .passes (fun h => Bool.noConfusion (hkeeps.1 h)) hvisits

/-- A call attends to each connection exactly once, with a send, a receive and the parser or by
removing it, exactly when the sends and receives on all but the last of the list go well and none of
those is idle for too long. -/
theorem handle_once_iff {s s' : Server} {now : Int} {rounds : List Round}
    {visits : List (Nat × Bool)} (hnodup : s.skts.Nodup)
    (h : s.swiotHandle now rounds = some (visits, s')) :
    (∀ x ∈ s.skts, (visits.map Prod.fst).count x = 1) ↔
      ∀ p ∈ s.clients.dropLast.zip rounds, p.2.Keeps now p.1 := by
  obtain ⟨⟨outcome, s₁⟩, henter, h⟩ := bind_eq_some_iff.1 h
  rw [Server.step] at henter
  split at henter
  · cases henter
    have hvisits := Server.handleLoop_visits (i := 0) rfl h
    exact hvisits.once_iff hnodup
  · cases henter

def pair : Server := ⟨[.active 4 [] [], .active 5 [] []], 2, 0, none, []⟩

theorem handle_once_iff_pair : ∃ visits s', pair.swiotHandle 1 [⟨.again, .again, none⟩,
    ⟨.again, .failed, none⟩] = some (visits, s') ∧
    visits = [(4, false), (5, true)] ∧ ∀ x ∈ pair.skts, (visits.map Prod.fst).count x = 1 := by
  have hvisits : (pair.swiotHandle 1 [⟨.again, .again, none⟩, ⟨.again, .failed, none⟩]).map
    Prod.fst = some [(4, false), (5, true)] := by
    decide +kernel
  obtain ⟨⟨visits, s'⟩, h, hvisits⟩ := map_eq_some_iff.1 hvisits
  subst hvisits
  exact ⟨_, s', h, rfl, (handle_once_iff (by decide) h).2 (by decide)⟩

/-- The first of two connections ends: the second one takes its place, and the call is over. -/
theorem second_is_passed_over : pair.skts = [4, 5] ∧ pair.swiotHandle 1 [⟨.again, .failed, none⟩] =
    some ([(4, true)], ⟨[.active 5 [] []], 2, 0, none, [some (swiotActiveSkt 5 [] [])]⟩) := by
  decide +kernel

def Action.time : Action → Option Int
  | .exchange now _ _ => some now
  | .parse _ => none
  | .respond r => some r.now

def Event.transfers : Event → Bool
  | .received _ | .sent _ => true
  | .stored _ _ _ _ | .queued _ | .packet _ | .returned _ => false

def Transferred (history : List (Action × List Event)) (tick : Int) : Prop :=
  ∃ x ∈ history, tick ∈ x.1.time ∧ ∃ e ∈ x.2, e.transfers = true
  deriving Decidable

/-- A transfer sets `data_tick` to its time. -/
def Ticked (time : Option Int) (client : ClientInfo) (events : List Event) (client' : ClientInfo) :
    Prop :=
  client'.dataTick ∈ time ∨ client'.dataTick = client.dataTick ∧ ∀ e ∈ events, e.transfers = false

theorem Ticked.trans (h : Ticked time a events b) (h' : Ticked time b events' c) :
    Ticked time a (events ++ events') c := by
  rcases h' with h' | ⟨hsame', hnone'⟩
  · exact .inl h'
  · rw [Ticked, hsame']
    exact h.imp_right fun h => ⟨h.1, forall_mem_append.2 ⟨h.2, hnone'⟩⟩

theorem check_ticked : Ticked (some now) client [] (swiotCheckClient client now).2 := by
  unfold swiotCheckClient Ticked
  dsimp only
  split <;> split <;> simp

theorem enqueue_ticked (h : client.enqueue data = some (client', events)) :
    Ticked time client events client' := by
  unfold ClientInfo.enqueue at h
  dsimp only at h
  split_ifs at h <;> cases h <;> exact .inr (by simp [Event.transfers])

theorem flush_ticked : Ticked (some now) client (client.flush sending now).2.2
    (client.flush sending now).2.1 := by
  unfold ClientInfo.flush
  cases sending <;> dsimp only <;> split_ifs <;> simp [Ticked]

theorem send_ticked (h : swiotClientSend client data sending now = some (ret, client', events)) :
    Ticked (some now) client events client' := by
  obtain ⟨⟨client₁, queued⟩, hqueued, h⟩ := bind_eq_some_iff.1 h
  cases h
  have hreturned {ret : Int} {client : ClientInfo} :
    Ticked (some now) client [.returned ret] client :=
    .inr ⟨rfl, forall_mem_singleton.2 rfl⟩
  exact (enqueue_ticked hqueued).trans (flush_ticked.trans hreturned)

theorem recv_ticked : Ticked (some now) client (swiotClientRecv client receiving now).2.2
    (swiotClientRecv client receiving now).2.1 := by
  cases receiving with
  | again | failed => exact .inr (by simp [swiotClientRecv])
  | bytes data =>
    unfold swiotClientRecv
    dsimp only
    split <;> simp [Ticked]

theorem parser_ticked (h : swiotParserPacket client fresh = some (client', events)) :
    Ticked time client events client' := by
  obtain ⟨ok, client₁, hheader, h⟩ := parser_inv h
  have hsame : client₁.dataTick = client.dataTick := by
    rcases parseHeader_inv hheader with ⟨-, rfl, -⟩ | ⟨-, hlen, clen, -, hfound⟩
    · rfl
    · cases hfound <;> rfl
  rcases h with ⟨-, h⟩ | ⟨-, rfl, rfl⟩
  · rcases deliver_inv h with ⟨-, rfl, rfl⟩ | ⟨-, -, -, rfl, session, -, rfl⟩
    · exact .inr ⟨hsame, by simp⟩
    · exact .inr ⟨hsame, by simp [Event.transfers]⟩
  · exact .inr ⟨hsame, by simp⟩

theorem step_ticked {c c' : Connection} (h : step (some c) a = some (events, some c')) :
    Ticked a.time c.client events c'.client := by
  cases a with
  | exchange now sending receiving =>
    change c.exchange now sending receiving = _ at h
    unfold Connection.exchange at h
    dsimp only at h
    split at h
    · cases h
    split at h
    · cases h
    obtain ⟨⟨ret, client₁, events₁⟩, hsend, h⟩ := bind_eq_some_iff.1 h
    dsimp only at h
    split at h
    · cases h
    · obtain ⟨rfl, hnext⟩ := Prod.mk.inj (some.inj h)
      split at hnext
      · cases hnext
        exact check_ticked.trans ((send_ticked hsend).trans recv_ticked)
      · cases hnext
  | parse fresh =>
    obtain ⟨-, client', hparser, hnext⟩ := parse_inv h
    cases hnext
    exact parser_ticked hparser
  | respond r =>
    obtain ⟨⟨ret, client₁, events₁⟩, hresponse, h⟩ := bind_eq_some_iff.1 h
    cases h
    refine Ticked.trans (b := client₁) ?_ (.inr (by simp [Event.transfers]))
    unfold swiotHttpServerResponse at hresponse
    dsimp only at hresponse
    split at hresponse
    · cases hresponse
      exact .inr (by simp)
    · obtain ⟨⟨ret₁, client₂, events₂⟩, hhead, hresponse⟩ := bind_eq_some_iff.1 hresponse
      obtain ⟨⟨ret₂, client₃, events₃⟩, hrest, hresponse⟩ := bind_eq_some_iff.1 hresponse
      cases hresponse
      exact (send_ticked hhead).trans (send_ticked hrest)

theorem run_ticked (hrun : Run step (fun _ _ => True)
    (some (.active skt readJunk writeJunk)) history s)
    (hclock : (history.filterMap (·.1.time)).Pairwise (· ≤ ·)) :
    ∀ c ∈ s, ∀ t, Transferred history t → t ≤ c.client.dataTick := by
  induction hrun with
  | start =>
    rintro c - t ⟨x, hx, -⟩
    cases hx
  | @next history s a events s' _ _ hstep ih =>
    rintro c' rfl t ⟨x, hx, htime, e, he, htransfers⟩
    rw [filterMap_append, pairwise_append] at hclock
    cases s with
    | none => cases hstep
    | some c =>
      rcases step_ticked hstep with hnow | ⟨hsame, hnone⟩
      · rcases mem_append.1 hx with hx | hx
        · exact hclock.2.2 t (mem_filterMap.2 ⟨x, hx, htime⟩) _
            (mem_filterMap.2 ⟨_, mem_singleton_self _, hnow⟩)
        · cases mem_singleton.1 hx
          exact (some.inj (htime.symm.trans hnow)).le
      · rw [hsame]
        rcases mem_append.1 hx with hx | hx
        · exact ih hclock.1 c rfl t ⟨x, hx, htime, e, he, htransfers⟩
        · cases mem_singleton.1 hx
          rw [hnone e he] at htransfers
          cases htransfers

/-- A connection that times out has been idle when nothing came after it was marked. -/
theorem timeout_idle {skt : Nat} {readJunk writeJunk : Bytes} {history : List (Action × List Event)}
    {c : Connection} {now : Int}
    (hrun : Run step (fun _ _ => True) (some (.active skt readJunk writeJunk)) history (some c))
    (hclock : (history.filterMap (·.1.time)).Pairwise (· ≤ ·))
    (htimeout : (swiotCheckClient c.client now).1 = false)
    (hquiet : c.client.dataTick ≤ c.client.deadTick) : ∀ t, Transferred history t →
    t + 10000 < now := by
  intro t ht
  have hle := run_ticked hrun hclock c rfl t ht
  have hdead : c.client.deadTick + 10000 < now := by
    unfold swiotCheckClient at htimeout
    dsimp only at htimeout
    split_ifs at htimeout <;> simp_all
  omega

theorem timeout_idle_later : ∃ history c, Run step (fun _ _ => True)
    (some (.active 5 [] [])) history (some c) ∧
    Transferred history 5 ∧ (swiotCheckClient c.client 70010).1 = false ∧
    ∀ t, Transferred history t → t + 10000 < 70010 := by
  obtain ⟨history, s, he, hclock, htransferred, c, rfl, hclosed, hquiet⟩ :=
    exists_of_exec step (fun _ _ => True)
    (some (.active 5 [] [])) [.exchange 5 .again (.bytes [71]), .parse none,
      .exchange 60006 .again .again]
    (fun history s => (history.filterMap (·.1.time)).Pairwise (· ≤ ·) ∧ Transferred history 5 ∧
      ∃ c ∈ s, (swiotCheckClient c.client 70010).1 = false ∧ c.client.dataTick ≤ c.client.deadTick)
        (by decide +kernel)
  exact ⟨history, c, .of_exec he, htransferred, hclosed,
    timeout_idle (.of_exec he) hclock hclosed hquiet⟩

/-- Bytes that come after the mark do not take it back. -/
theorem timeout_after_transfer : ∃ history c,
    Run step (fun _ _ => True) (some (.active 5 [] [])) history (some c) ∧
    (history.filterMap (·.1.time)).Pairwise (· ≤ ·) ∧ Transferred history 70006 ∧
    (swiotCheckClient c.client 70010).1 = false := by
  obtain ⟨history, s, he, hclock, htransferred, c, rfl, hclosed⟩ :=
    exists_of_exec step (fun _ _ => True)
    (some (.active 5 [] [])) [.exchange 5 .again (.bytes [71]), .parse none,
      .exchange 60006 .again .again, .parse none, .exchange 70006 .again (.bytes [69])]
    (fun history s => (history.filterMap (·.1.time)).Pairwise (· ≤ ·) ∧ Transferred history 70006 ∧
      ∃ c ∈ s, (swiotCheckClient c.client 70010).1 = false) (by decide +kernel)
  exact ⟨history, c, .of_exec he, hclock, htransferred, hclosed⟩

end SwApi.HttpServer
