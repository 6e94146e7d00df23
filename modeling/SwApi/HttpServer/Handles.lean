import Mathlib.Data.List.InsertIdx
import SwApi.HttpServer.Sends
import SwApi.Library.Lists

/-! The pointer that the packet callback gets: it is good until a connection before it is removed or
the list moves. -/
namespace SwApi.HttpServer
open Library List Option

def Server.skts (s : Server) : List Nat := s.clients.map fun c => c.client.skt

def ServerOk (s : Server) : Prop := ∀ c ∈ s.clients, WriteOk c.client

inductive Changes (s : Server) : Outcome → Server → Prop where
  | added {moved : Bool} {c : Connection} {s' : Server} : WriteOk c.client →
      s'.clients = s.clients ++ [c] → s'.block = (if moved then s.block + 1 else s.block) →
      Changes s (.accepted moved) s'
  | erased {i : Nat} {c : Connection} {events : List Event} {s' : Server} :
      s.clients[i]? = some c → s'.clients = s.clients.eraseIdx i → s'.block = s.block →
      Changes s (.removed i c.client.skt events) s'
  | kept {outcome : Outcome} {s' : Server} : ServerOk s' → s'.skts = s.skts → s'.block = s.block →
      Changes s outcome s'

section
variable {s s' : Server}

theorem ServerOk.get (hok : ServerOk s) {i : Nat} (hc : s.clients[i]? = some c) :
    WriteOk c.client :=
  hok c (mem_of_getElem? hc)

/-- A record is replaced by one of the same socket. -/
theorem ServerOk.replaced (hok : ServerOk s) {c c' : Connection} (hc : s.clients[i]? = some c)
    (hskt : c'.client.skt = c.client.skt) (hwrite : WriteOk c'.client)
    (hclients : s'.clients = s.clients.set i c') (hblock : s'.block = s.block) :
    Changes s outcome s' := by
  refine .kept ?_ ?_ hblock
  · intro d hd
    rw [hclients] at hd
    rcases mem_or_eq_of_mem_set hd with hd | rfl
    · exact hok d hd
    · exact hwrite
  · rw [Server.skts, hclients, map_set, hskt]
    apply set_eq_self
    rw [getElem?_map, hc]
    rfl

theorem accept_changes (h : s.accept skt readJunk writeJunk moved = some (outcome, s')) :
    Changes s outcome s' := by
  have hwrite := active_ok skt readJunk writeJunk
  unfold Server.accept at h
  dsimp only at h
  split at h
  · cases h
  split at h
  · cases h
    exact .added hwrite rfl rfl
  · cases h
    exact .added hwrite rfl rfl

theorem exchange_changes (hok : ServerOk s) {now : Int}
    (h : s.exchange now sending receiving = some (outcome, s')) : Changes s outcome s' := by
  obtain ⟨i, -, h⟩ := bind_eq_some_iff.1 h
  obtain ⟨c, hc, h⟩ := bind_eq_some_iff.1 h
  obtain ⟨⟨events, next⟩, hround, h⟩ := bind_eq_some_iff.1 h
  cases next with
  | none =>
    cases h
    exact .erased hc rfl rfl
  | some c' =>
    cases h
    obtain ⟨hwrite, hskt⟩ :=
      (step_moves (a := .exchange now sending receiving) (hok.get hc) hround).1 c' rfl
    exact hok.replaced hc hskt hwrite rfl rfl

theorem parse_changes (hok : ServerOk s) {fresh : Option Bytes}
    (h : s.parse fresh = some (outcome, s')) : Changes s outcome s' ∧ ∃ i events c,
      outcome = .parsed ⟨s.block, i⟩ c.client.skt events ∧ s.clients[i]? = some c := by
  obtain ⟨i, -, h⟩ := bind_eq_some_iff.1 h
  obtain ⟨c, hc, h⟩ := bind_eq_some_iff.1 h
  obtain ⟨⟨events, next⟩, hround, h⟩ := bind_eq_some_iff.1 h
  cases next with
  | none => cases h
  | some c' =>
    cases h
    obtain ⟨hwrite, hskt⟩ := (step_moves (a := .parse fresh) (hok.get hc) hround).1 c' rfl
    exact ⟨hok.replaced hc hskt hwrite rfl rfl, i, events, c, rfl, hc⟩

theorem enqueue_length {client client' : ClientInfo}
    (h : client.enqueue data = some (client', events)) :
    client'.writeBuf.length = client.writeBuf.length := by
  unfold ClientInfo.enqueue at h
  dsimp only at h
  split_ifs at h <;> cases h
  · rfl
  all_goals exact (overwrite_length _ _ _).trans (overwrite_length _ _ _)

theorem flush_length (client : ClientInfo) (sending : Sending) (now : Int) :
    (client.flush sending now).2.1.writeBuf.length = client.writeBuf.length := by
  unfold ClientInfo.flush
  cases sending <;> dsimp only <;> split_ifs <;> first | rfl | exact overwrite_length _ _ _

theorem send_length (h : swiotClientSend client data sending now = some (ret, client', events)) :
    client'.writeBuf.length = client.writeBuf.length := by
  obtain ⟨⟨client₁, queued⟩, hqueued, h⟩ := bind_eq_some_iff.1 h
  cases h
  exact (flush_length client₁ sending now).trans (enqueue_length hqueued)

theorem response_length (h : swiotHttpServerResponse client r = some (ret, client', events)) :
    client'.writeBuf.length = client.writeBuf.length := by
  unfold swiotHttpServerResponse at h
  dsimp only at h
  split at h
  · cases h
    rfl
  · obtain ⟨⟨ret₁, client₁, events₁⟩, hhead, h⟩ := bind_eq_some_iff.1 h
    obtain ⟨⟨ret₂, client₂, events₂⟩, hdata, h⟩ := bind_eq_some_iff.1 h
    cases h
    exact (send_length hdata).trans (send_length hhead)

/-- A response through a copy stores into the buffer of its connection. -/
theorem respondCopy_changes (hok : ServerOk s) (h : s.respondCopy k r = some (outcome, s')) :
    Changes s outcome s' := by
  obtain ⟨copy, -, h⟩ := bind_eq_some_iff.1 h
  obtain ⟨c, hc, h⟩ := bind_eq_some_iff.1 h
  obtain ⟨⟨ret, copy', events⟩, hresponse, h⟩ := bind_eq_some_iff.1 h
  cases h
  have hlength := response_length hresponse
  obtain ⟨hnonneg, hle, hsize⟩ := hok.get hc
  let c' : Connection := { c with client := { c.client with writeBuf := copy'.writeBuf } }
  have hskt : c'.client.skt = c.client.skt := rfl
  have hwrite : WriteOk c'.client := ⟨hnonneg, hle, hsize.trans (congrArg Nat.cast hlength.symm)⟩
  exact hok.replaced hc hskt hwrite rfl rfl

theorem respond_changes (hok : ServerOk s) {handle : Handle}
    (h : s.respond handle r = some (outcome, s')) : Changes s outcome s' := by
  unfold Server.respond at h
  split at h
  · cases h
    exact .kept hok rfl rfl
  split at h
  · split at h
    · exact respondCopy_changes hok h
    · rename_i c hc
      obtain ⟨ret, client', events, data, heq, hsends, -⟩ := response_spec (hok.get hc) r
      rw [heq] at h
      cases h
      exact hok.replaced hc hsends.read.skt hsends.ok rfl rfl
  · cases h

theorem step_changes (hok : ServerOk s) (h : s.step call = some (outcome, s')) :
    Changes s outcome s' := by
  cases call with
  | accept skt readJunk writeJunk moved => exact accept_changes h
  | enter | leave =>
    rw [Server.step] at h
    split at h
    · cases h
      exact .kept hok rfl rfl
    · cases h
  | exchange now sending receiving => exact exchange_changes hok h
  | parse fresh => exact (parse_changes hok h).1
  | respond handle r => exact respond_changes hok h

theorem Changes.ok (h : Changes s outcome s') (hok : ServerOk s) : ServerOk s' := by
  cases h with
  | added hwrite hclients _ =>
    rw [ServerOk, hclients]
    exact forall_mem_append.2 ⟨hok, forall_mem_singleton.2 hwrite⟩
  | erased _ hclients _ =>
    intro c hc
    rw [hclients] at hc
    exact hok c (mem_of_mem_eraseIdx hc)
  | kept hok' _ _ => exact hok'

theorem run_ok (hrun : Run Server.step (fun _ _ => True) Server.init history s) : ServerOk s := by
  refine Run.invariant (fun _ s => ServerOk s) ?_ ?_ hrun
  · exact forall_mem_nil _
  · intro history s call outcome s' hok _ hstep
    exact (step_changes hok hstep).ok hok

/-- A call after which a pointer to the place `i` points to something else: the record of the next
connection, a copy that is behind the list now, or freed memory. -/
def Outcome.Displaces (i : Nat) : Outcome → Prop
  | .accepted moved => moved = true
  | .removed j _ _ => j < i
  | _ => False

def Outcome.closed : Outcome → Option Nat
  | .removed _ skt _ => some skt
  | _ => none

/-- The connection `skt` is at the place `i` of the block `block`. -/
structure Stands (block i skt : Nat) (s : Server) : Prop where
  ok : ServerOk s
  place : s.skts[i]? = some skt
  same : s.block = block

theorem Stands.next (h : Stands block i skt s) (hstep : s.step call = some (outcome, s'))
    (hopen : outcome.closed ≠ some skt) (hplace : ¬outcome.Displaces i) :
    Stands block i skt s' := by
  have hchanges := step_changes h.ok hstep
  have hok' := hchanges.ok h.ok
  obtain ⟨hok, hskt, hblock⟩ := h
  cases hchanges with
  | added _ hclients hblock' =>
    refine ⟨hok', ?_, hblock'.trans ((if_neg hplace).trans hblock)⟩
    rw [Server.skts, hclients, map_append]
    exact (getElem?_append_left (List.getElem?_eq_some_iff.1 hskt).1).trans hskt
  | @erased e c _ _ hc hclients hblock' =>
    have hesk : s.skts[e]? = some c.client.skt := by
      rw [Server.skts, getElem?_map, hc]
      rfl
    have hne : e ≠ i := by
      rintro rfl
      exact hopen (hesk.symm.trans hskt)
    have hlt : i < e := Nat.lt_of_le_of_ne (Nat.le_of_not_lt hplace) hne.symm
    refine ⟨hok', ?_, hblock'.trans hblock⟩
    rw [Server.skts, hclients, ← eraseIdx_map, getElem?_eraseIdx_of_lt hlt]
    exact hskt
  | kept _ hskts hblock' => exact ⟨hok', hskts ▸ hskt, hblock'.trans hblock⟩

/-- A response through the pointer reaches the connection `skt`: it goes to its socket and its
buffer, and to no other. -/
def Server.Reaches (s : Server) (handle : Handle) (r : Reply) (skt : Nat) : Prop :=
  ∃ c c' events, s.clients[handle.index]? = some c ∧ c.client.skt = skt ∧
    c.respond r = some (events, some c') ∧ s.step (.respond handle r) =
      some (.answered skt events, { s with clients := s.clients.set handle.index c' })

theorem Stands.reaches (h : Stands block i skt s)
    (hcode : urlGetHttpresp r.code r.sessionId r.data.length ≠ []) :
    s.Reaches ⟨block, i⟩ r skt := by
  obtain ⟨hok, hskt, hblock⟩ := h
  rw [Server.skts, getElem?_map] at hskt
  obtain ⟨c, hc, rfl⟩ := map_eq_some_iff.1 hskt
  obtain ⟨ret, client', events, data, heq, -⟩ := response_spec (hok.get hc) r
  refine ⟨c, _, _, hc, rfl, by rw [Connection.respond, heq]; rfl, ?_⟩
  rw [Server.step, Server.respond, if_neg hcode, if_pos hblock.symm, hc]
  dsimp only
  rw [heq]
  rfl

end

/-- In some run the connection `skt` asked, with the pointer `handle` in its request; since then
`history` has led to `s`, and the connection is still open. -/
def Asked (handle : Handle) (skt : Nat) (history : List (Call × Outcome)) (s : Server) : Prop :=
  ∃ before s₀ fresh events s₁, Run Server.step (fun _ _ => True) Server.init before s₀ ∧
    s₀.step (.parse fresh) = some (.parsed handle skt events, s₁) ∧
    Run Server.step (fun _ _ => True) s₁ history s ∧ ∀ x ∈ history, x.2.closed ≠ some skt

/-- As long as no connection before the one that asked is removed and the list does not move, a
response through the pointer of its request reaches it. -/
theorem response_reaches {s : Server} {history : List (Call × Outcome)} {handle : Handle}
    {skt : Nat} {r : Reply} (hasked : Asked handle skt history s)
    (hplace : ∀ x ∈ history, ¬x.2.Displaces handle.index)
    (hcode : urlGetHttpresp r.code r.sessionId r.data.length ≠ []) : s.Reaches handle r skt := by
  obtain ⟨before, s₀, fresh, events, s₁, hbefore, hask, hrun, hopen⟩ := hasked
  have hok₀ := run_ok hbefore
  obtain ⟨-, i, events', c, houtcome, hc⟩ := parse_changes hok₀ hask
  cases houtcome
  have hasked : Stands s₀.block i c.client.skt s₀ := by
    refine ⟨hok₀, ?_, rfl⟩
    rw [Server.skts, getElem?_map, hc]
    rfl
  have hstands : (∀ x ∈ history, x.2.closed ≠ some c.client.skt ∧ ¬x.2.Displaces i) →
      Stands s₀.block i c.client.skt s := by
    refine Run.invariant (fun history s =>
      (∀ x ∈ history, x.2.closed ≠ some c.client.skt ∧ ¬x.2.Displaces i) →
        Stands s₀.block i c.client.skt s) ?_ ?_ hrun
    · intro _
      exact hasked.next hask nofun id
    · intro history s call outcome s' hinv _ hstep hall
      obtain ⟨hclosed, hkept⟩ := hall _ (mem_append_right history (mem_singleton_self _))
      exact (hinv fun x hx => hall x (mem_append_left _ hx)).next hstep hclosed hkept
  exact (hstands fun x hx => ⟨hopen x hx, hplace x hx⟩).reaches hcode

instance (i : Nat) (outcome : Outcome) : Decidable (outcome.Displaces i) := by
  unfold Outcome.Displaces
  split <;> infer_instance

def Outcome.asked : Outcome → Option (Handle × Nat)
  | .parsed handle skt _ => some (handle, skt)
  | _ => none

theorem parsed_of_asked {outcome : Outcome} (h : outcome.asked = some (handle, skt)) :
    ∃ events, outcome = .parsed handle skt events := by
  cases outcome with
  | parsed handle' skt' events =>
    cases h
    exact ⟨events, rfl⟩
  | accepted _ | entered | exchanged _ _ | removed _ _ _ | left | answered _ _ | refused => cases h

def Outcome.answerer : Outcome → Option Nat
  | .answered skt _ => some skt
  | _ => none

theorem answered_of_answerer {outcome : Outcome} (h : outcome.answerer = some skt) :
    ∃ events, outcome = .answered skt events := by
  cases outcome with
  | answered skt' events =>
    cases h
    exact ⟨events, rfl⟩
  | accepted _ | entered | exchanged _ _ | removed _ _ _ | parsed _ _ _ | left | refused => cases h

def arrivals : List Call :=
  [.accept 3 [] [] false, .accept 4 [] [] false, .enter, .exchange 1 .again .again,
    .parse (some []), .exchange 1 .again (.bytes (text "GET / HTTP/1.1\r\n\r\n"))]

theorem exists_asked (calls : List Call) (test : List (Call × Outcome) → Server → Prop)
    (h : ∃ before s₀, exec Server.step (fun _ _ => True) Server.init arrivals = some (before, s₀) ∧
      ∃ outcome s₁, s₀.step (.parse (some [])) = some (outcome, s₁) ∧
      ∃ history s, exec Server.step (fun _ _ => True) s₁ calls = some (history, s) ∧
        outcome.asked = some (⟨0, 1⟩, 4) ∧ (∀ x ∈ history, x.2.closed ≠ some 4) ∧ test history s) :
    ∃ history s, Asked ⟨0, 1⟩ 4 history s ∧ test history s := by
  obtain ⟨before, s₀, hbefore, outcome, s₁, hask, history, s, hrun, hasked, hopen, hp⟩ := h
  obtain ⟨events, rfl⟩ := parsed_of_asked hasked
  exact ⟨history, s, ⟨before, s₀, _, events, s₁, .of_exec hbefore, hask, .of_exec hrun, hopen⟩, hp⟩

set_option synthInstance.maxSize 1000

theorem response_reaches_later : ∃ history s, Asked ⟨0, 1⟩ 4 history s ∧
    s.Reaches ⟨0, 1⟩ ⟨0, 200, [], 2, .again, .again⟩ 4 := by
  obtain ⟨history, s, hasked, hplace⟩ := exists_asked
    [.leave, .accept 5 [] [] false, .enter, .exchange 2 .again .again, .parse (some [])]
    (fun history _ => ∀ x ∈ history, ¬x.2.Displaces 1) (by decide +kernel)
  exact ⟨history, s, hasked, response_reaches hasked hplace (by decide)⟩

/-- The first connection ends and another one is accepted: it gets the response. -/
theorem response_reaches_other : ∃ history s, Asked ⟨0, 1⟩ 4 history s ∧ 4 ∈ s.skts ∧
    ∃ events' s', s.step (.respond ⟨0, 1⟩ ⟨0, 200, [], 2, .room 1000, .again⟩) =
      some (.answered 5 events', s') := by
  obtain ⟨history, s, hasked, hskt, outcome, s', hstep, hanswered⟩ := exists_asked
    [.leave, .enter, .exchange 2 .again .failed, .leave, .accept 5 [] [] false]
    (fun _ s => 4 ∈ s.skts ∧ ∃ outcome s', s.step (.respond ⟨0, 1⟩
      ⟨0, 200, [], 2, .room 1000, .again⟩) = some (outcome, s') ∧ outcome.answerer = some 5)
    (by decide +kernel)
  refine ⟨history, s, hasked, hskt, ?_⟩
  obtain ⟨events', rfl⟩ := answered_of_answerer hanswered
  exact ⟨events', s', hstep⟩

end SwApi.HttpServer
