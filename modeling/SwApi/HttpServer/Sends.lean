import SwApi.HttpServer.Parser

/-! What `swiot_client_send` does with the bytes it gets: data that find no room are dropped, and
the call does not say so. -/
namespace SwApi.HttpServer
open Library List Option

variable {next : Option Connection}

def sentData (events : List Event) : Bytes :=
  events.flatMap fun
    | .sent data => data
    | _ => []

def passedData (events : List Event) : Bytes :=
  events.flatMap fun
    | .queued data => data
    | _ => []

def eventsOf (history : List (Action × List Event)) : List Event := history.flatMap Prod.snd

section
variable {after : Bytes}

theorem sentData_append : sentData (events ++ events') = sentData events ++ sentData events' :=
  flatMap_append

theorem passedData_append : passedData (events ++ events') =
    passedData events ++ passedData events' := flatMap_append

/-- Events after which the bytes pending before and the bytes passed have been sent or are pending
exactly when there was `room`; otherwise some are missing. -/
structure Moves (room : Prop) (before : Bytes) (events : List Event) (after : Bytes) : Prop where
  whole : room → sentData events ++ after = before ++ passedData events
  cut : ¬room → (sentData events ++ after).length < (before ++ passedData events).length

theorem Moves.refl (before : Bytes) : Moves True before [] before :=
  ⟨fun _ => (append_nil before).symm, fun h => absurd trivial h⟩

theorem Moves.length_le (h : Moves room before events after) :
    (sentData events ++ after).length ≤ (before ++ passedData events).length := by
  by_cases hroom : room
  · rw [h.whole hroom]
  · exact Nat.le_of_lt (h.cut hroom)

theorem Moves.congr (h : Moves room before events after) (hiff : room ↔ room') :
    Moves room' before events after :=
  ⟨fun hroom => h.whole (hiff.2 hroom), fun hroom => h.cut fun hr => hroom (hiff.1 hr)⟩

theorem Moves.trans (h : Moves room before events middle) (h' : Moves room' middle events' after) :
    Moves (room ∧ room') before (events ++ events') after := by
  have hle := h.length_le
  have hle' := h'.length_le
  simp only [length_append] at hle hle'
  constructor
  · rintro ⟨hr, hr'⟩
    rw [sentData_append, passedData_append, append_assoc, h'.whole hr', ← append_assoc, h.whole hr,
      append_assoc]
  · intro hroom
    rw [sentData_append, passedData_append]
    simp only [length_append]
    rcases not_and_or.1 hroom with hcut | hcut
    · have hlt := h.cut hcut
      simp only [length_append] at hlt
      omega
    · have hlt := h'.cut hcut
      simp only [length_append] at hlt
      omega

end

def ClientInfo.pending (client : ClientInfo) : Bytes :=
  client.writeBuf.take client.writeDatasize.toNat

structure WriteOk (client : ClientInfo) : Prop where
  nonneg : 0 ≤ client.writeDatasize
  le : client.writeDatasize ≤ client.writeBufsize
  size : client.writeBufsize = client.writeBuf.length

structure SameWrite (client client' : ClientInfo) : Prop where
  buf : client'.writeBuf = client.writeBuf
  bufsize : client'.writeBufsize = client.writeBufsize
  datasize : client'.writeDatasize = client.writeDatasize

structure SameRead (client client' : ClientInfo) : Prop where
  skt : client'.skt = client.skt
  buf : client'.readBuf = client.readBuf
  bufsize : client'.readBufsize = client.readBufsize
  datasize : client'.readDatasize = client.readDatasize
  hlen : client'.hlen = client.hlen
  clen : client'.clen = client.clen

theorem SameRead.refl (client : ClientInfo) : SameRead client client :=
  ⟨rfl, rfl, rfl, rfl, rfl, rfl⟩

theorem SameRead.trans (h : SameRead a b) (h' : SameRead b c) : SameRead a c :=
  ⟨h'.skt.trans h.skt, h'.buf.trans h.buf, h'.bufsize.trans h.bufsize, h'.datasize.trans h.datasize,
    h'.hlen.trans h.hlen, h'.clen.trans h.clen⟩

theorem SameWrite.ok (h : SameWrite client client') (hok : WriteOk client) : WriteOk client' := by
  exact ⟨h.datasize ▸ hok.nonneg, h.datasize ▸ h.bufsize ▸ hok.le, h.bufsize ▸ h.buf ▸ hok.size⟩

theorem SameWrite.pending (h : SameWrite client client') : client'.pending = client.pending := by
  rw [ClientInfo.pending, ClientInfo.pending, h.buf, h.datasize]

/-- The data find room in `write_buf`. -/
def ClientInfo.Fits (client : ClientInfo) (data : Bytes) : Prop :=
  client.writeDatasize + data.length ≤ client.writeBufsize

structure Enqueued (client : ClientInfo) (data : Bytes) (n : Nat) (client' : ClientInfo) :
    Prop where
  count : client.writeDatasize + n = min (client.writeDatasize + data.length) client.writeBufsize
  datasize : client'.writeDatasize = client.writeDatasize + n
  bufsize : client'.writeBufsize = client.writeBufsize
  length : client'.writeBuf.length = client.writeBuf.length
  pending : client'.pending = client.pending ++ data.take n
  read : SameRead client client'

theorem enqueue_spec (hok : WriteOk client) (hdata : data ≠ []) :
    ∃ n client', Enqueued client data n client' ∧
    client.enqueue data = some (client', [.queued data,
    .stored .write client.writeDatasize n client.writeBuf.length,
      .stored .write (client.writeDatasize + n) 1 client.writeBuf.length]) := by
  obtain ⟨hnonneg, hle, hsize⟩ := hok
  obtain ⟨d, hd⟩ := Int.eq_ofNat_of_zero_le hnonneg
  have hroom : d ≤ client.writeBuf.length := by omega
  have hcp : (if client.writeBufsize - client.writeDatasize > (data.length : Int) then
    (data.length : Int)
      else client.writeBufsize - client.writeDatasize) =
        ((min data.length (client.writeBuf.length - d) : Nat) : Int) := by
    split <;> omega
  generalize hn : min data.length (client.writeBuf.length - d) = n at hcp
  have hlen : (data.take n).length = n := by
    rw [length_take]
    omega
  refine ⟨n, { client with
    writeBuf := overwrite (overwrite client.writeBuf client.writeDatasize.toNat (data.take n))
      (client.writeDatasize + n).toNat [0]
    writeDatasize := client.writeDatasize + n },
    ⟨by omega, rfl, rfl, ?_, ?_, ⟨rfl, rfl, rfl, rfl, rfl, rfl⟩⟩, ?_⟩
  · dsimp only
    rw [overwrite_length, overwrite_length]
  · have hsum : (client.writeDatasize + n).toNat = d + (data.take n).length := by omega
    dsimp only [ClientInfo.pending]
    rw [hsum, hd, Int.toNat_natCast, take_overwrite_of_le (Nat.le_refl _)
      (by rw [overwrite_length]; omega), take_overwrite (by omega)]
  · unfold ClientInfo.enqueue
    rw [if_neg hdata]
    dsimp only
    rw [hcp, if_neg (by omega)]
    rfl

structure Flushed (client : ClientInfo) (n : Nat) (client' : ClientInfo) : Prop where
  le : n ≤ client.pending.length
  datasize : client'.writeDatasize = client.writeDatasize - n
  bufsize : client'.writeBufsize = client.writeBufsize
  length : client'.writeBuf.length = client.writeBuf.length
  pending : client'.pending = client.pending.drop n
  read : SameRead client client'

theorem Flushed.refl (client : ClientInfo) : Flushed client 0 client :=
  ⟨Nat.zero_le _, (Int.sub_zero _).symm, rfl, rfl, rfl, .refl client⟩

theorem pending_length (hok : WriteOk client) :
    (client.pending.length : Int) = client.writeDatasize := by
  obtain ⟨hnonneg, hle, hsize⟩ := hok
  rw [ClientInfo.pending, length_take]
  omega

/-- What a send leaves of `n` bytes. -/
def Sending.leaves : Sending → Int → Int
  | .room k, n => n - min k n.toNat
  | .again, n => n
  | .failed, n => n

theorem flush_spec (hok : WriteOk client) (sending : Sending) (now : Int) : ∃ ret n client',
    Flushed client n client' ∧ client'.writeDatasize = sending.leaves client.writeDatasize ∧
    client.flush sending now = (ret, client', if 0 < n then [.sent (client.pending.take n),
      .stored .write 0 (client.writeDatasize - n) client.writeBuf.length] else []) := by
  have hlen := pending_length hok
  obtain ⟨hnonneg, hle, hsize⟩ := hok
  obtain ⟨d, hd⟩ := Int.eq_ofNat_of_zero_le hnonneg
  by_cases hpos : 0 < client.writeDatasize
  · cases sending with
    | again | failed => exact ⟨-1, 0, client, .refl client, rfl, if_pos hpos⟩
    | room n =>
      by_cases hn : 0 < min n client.writeDatasize.toNat
      · generalize hr : min n client.writeDatasize.toNat = r at hn
        have hcut : ((client.writeBuf.drop r).take (client.writeDatasize - r).toNat).length =
            (client.writeDatasize - r).toNat := by
          rw [length_take, length_drop]
          omega
        refine ⟨r, r, { client with
          writeBuf := overwrite client.writeBuf 0
            ((client.writeBuf.drop r).take (client.writeDatasize - r).toNat)
          writeDatasize := client.writeDatasize - r
          dataTick := now }, ⟨by omega, rfl, rfl, ?_, ?_, ⟨rfl, rfl, rfl, rfl, rfl, rfl⟩⟩, ?_, ?_⟩
        · exact overwrite_length _ _ _
        · rw [ClientInfo.pending, ClientInfo.pending, drop_take]
          dsimp only
          nth_rewrite 1 [← hcut]
          rw [take_overwrite_zero (by omega)]
          congr 1
          omega
        · rw [Sending.leaves, hr]
        · unfold ClientInfo.flush
          rw [if_pos hpos]
          dsimp only
          rw [hr, if_pos hn, if_pos hn, ClientInfo.pending, take_take, Nat.min_eq_left (by omega)]
      · refine ⟨0, 0, client, .refl client, ?_, ?_⟩
        · rw [Sending.leaves]
          omega
        · unfold ClientInfo.flush
          rw [if_pos hpos]
          dsimp only
          rw [if_neg hn, if_neg (Nat.lt_irrefl 0)]
  · refine ⟨0, 0, client, .refl client, ?_, if_neg hpos⟩
    cases sending <;> simp only [Sending.leaves]
    omega

def Event.InBounds : Event → Prop
  | .stored _ start count size => 0 ≤ start ∧ 0 ≤ count ∧ start + count ≤ size
  | _ => True

def Event.OfWriting : Event → Prop
  | .received _ => False
  | .packet _ => False
  | _ => True

structure Sends (room : Prop) (client : ClientInfo) (data : Bytes) (events : List Event)
    (client' : ClientInfo) : Prop where
  ok : WriteOk client'
  datasize : client'.writeDatasize ≤ client.writeDatasize + data.length
  bufsize : client'.writeBufsize = client.writeBufsize
  moves : Moves room client.pending events client'.pending
  read : SameRead client client'
  bounds : data = [] ∨ client.writeDatasize + data.length < client.writeBufsize →
    ∀ e ∈ events, e.InBounds
  writing : ∀ e ∈ events, e.OfWriting

theorem Sends.refl (hok : WriteOk client) : Sends True client [] [] client :=
  ⟨hok, by simp, rfl, .refl _, .refl client, fun _ => forall_mem_nil _, forall_mem_nil _⟩

theorem Sends.congr (h : Sends room client data events client') (hiff : room ↔ room') :
    Sends room' client data events client' :=
  { h with moves := h.moves.congr hiff }

theorem Sends.trans (h : Sends room client data events client₁)
    (h' : Sends room' client₁ data' events' client₂) :
    Sends (room ∧ room') client (data ++ data') (events ++ events') client₂ := by
  have hlen : (data ++ data').length = data.length + data'.length := length_append
  have hdatasize := h.datasize
  refine ⟨h'.ok, by have := h'.datasize; omega, h'.bufsize.trans h.bufsize, h.moves.trans h'.moves,
    h.read.trans h'.read, ?_, forall_mem_append.2 ⟨h.writing, h'.writing⟩⟩
  intro hroom
  have hroom₁ : data = [] ∨ client.writeDatasize + data.length < client.writeBufsize := by
    refine hroom.imp (fun hnil => (append_eq_nil_iff.1 hnil).1) fun hlt => ?_
    omega
  have hroom₂ : data' = [] ∨ client₁.writeDatasize + data'.length < client₁.writeBufsize := by
    rw [h.bufsize]
    refine hroom.imp (fun hnil => (append_eq_nil_iff.1 hnil).2) fun hlt => ?_
    omega
  exact forall_mem_append.2 ⟨h.bounds hroom₁, h'.bounds hroom₂⟩

theorem Moves.idle (hsent : sentData events = []) (hpassed : passedData events = []) :
    Moves True data events data :=
  ⟨fun _ => by rw [hsent, hpassed, nil_append, append_nil], fun hcut => absurd trivial hcut⟩

theorem Sends.returned (h : Sends room client data events client') (ret : Int) :
    Sends room client data (events ++ [.returned ret]) client' := by
  have hreturned : Sends True client' [] [.returned ret] client' :=
    ⟨h.ok, by simp, rfl, .idle rfl rfl, .refl _, fun _ => forall_mem_singleton.2 trivial,
      forall_mem_singleton.2 trivial⟩
  have hboth := (h.trans hreturned).congr (and_iff_left trivial)
  rwa [append_nil] at hboth

theorem Enqueued.sends (h : Enqueued client data n client') (hdata : data ≠ [])
    (hok : WriteOk client) :
    Sends (client.Fits data) client data [.queued data,
    .stored .write client.writeDatasize n client.writeBuf.length,
      .stored .write (client.writeDatasize + n) 1 client.writeBuf.length] client' := by
  obtain ⟨hcount, hdatasize, hbufsize, hlength, hpending, hread⟩ := h
  obtain ⟨hnonneg, hroom, hsize⟩ := hok
  refine ⟨⟨by omega, by omega, by omega⟩, by omega, hbufsize, ⟨fun htaken => ?_, fun hcut => ?_⟩,
    hread, ?_, ?_⟩
  · unfold ClientInfo.Fits at htaken
    rw [hpending, take_of_length_le (by omega)]
    simp [sentData, passedData]
  · unfold ClientInfo.Fits at hcut
    rw [hpending]
    simp only [sentData, passedData, flatMap_cons, flatMap_nil, nil_append, append_nil,
      length_append, length_take]
    omega
  · rintro (hnil | hlt)
    · exact absurd hnil hdata
    · simp only [forall_mem_cons]
      exact ⟨trivial, ⟨hnonneg, Int.natCast_nonneg n, by omega⟩, ⟨by omega, by decide, by omega⟩,
        forall_mem_nil _⟩
  · simp [Event.OfWriting]

theorem Flushed.sends (h : Flushed client n client') (hok : WriteOk client) :
    Sends True client [] (if 0 < n then [.sent (client.pending.take n),
      .stored .write 0 (client.writeDatasize - n) client.writeBuf.length] else []) client' := by
  have hlen := pending_length hok
  obtain ⟨hle, hdatasize, hbufsize, hlength, hpending, hread⟩ := h
  obtain ⟨hnonneg, hroom, hsize⟩ := hok
  refine ⟨⟨by omega, by omega, by omega⟩, by simp; omega, hbufsize,
    ⟨fun _ => ?_, fun hcut => absurd trivial hcut⟩, hread, fun _ => ?_, ?_⟩
  · rw [hpending]
    split
    · simp [sentData, passedData]
    · have hn : n = 0 := by omega
      subst hn
      simp [sentData, passedData]
  · split
    · exact forall_mem_cons.2 ⟨trivial, forall_mem_singleton.2 ⟨Int.le_refl 0, by omega, by omega⟩⟩
    · exact forall_mem_nil _
  · split
    · exact forall_mem_cons.2 ⟨trivial, forall_mem_singleton.2 trivial⟩
    · exact forall_mem_nil _

theorem enqueue_sends (hok : WriteOk client) (data : Bytes) : ∃ client' events,
    client.enqueue data = some (client', events) ∧
    Sends (client.Fits data) client data events client' ∧
      client'.writeDatasize = min (client.writeDatasize + data.length) client.writeBufsize := by
  by_cases hdata : data = []
  · subst hdata
    have hfits : client.Fits [] := (Int.add_zero _).trans_le hok.le
    exact ⟨client, [], rfl, (Sends.refl hok).congr (iff_of_true trivial hfits),
      (min_eq_left hfits).symm ▸ (Int.add_zero _).symm⟩
  · obtain ⟨n, client₁, hn, heq⟩ := enqueue_spec hok hdata
    exact ⟨client₁, _, heq, hn.sends hdata hok, hn.datasize.trans hn.count⟩

theorem send_spec (hok : WriteOk client) (data : Bytes) (sending : Sending) (now : Int) :
    ∃ ret client' events,
    swiotClientSend client data sending now = some (ret, client', events) ∧ .returned ret ∈ events ∧
      Sends (client.Fits data) client data events client' ∧
      client'.writeDatasize = sending.leaves
      (min (client.writeDatasize + data.length) client.writeBufsize) := by
  obtain ⟨client₁, events, heq, hsends, hdatasize⟩ := enqueue_sends hok data
  obtain ⟨ret, n, client₂, hflushed, hleaves, hflush⟩ := flush_spec hsends.ok sending now
  have hsent := (hflushed.sends hsends.ok).returned ret
  generalize (if 0 < n then _ else [] : List Event) = sent at hflush hsent
  refine ⟨ret, client₂, events ++ (sent ++ [.returned ret]), ?_,
    mem_append_right _ (mem_append_right _ (mem_singleton_self _)), ?_,
      hleaves.trans (by rw [hdatasize])⟩
  · rw [swiotClientSend, heq, bind_eq_bind, bind_some]
    dsimp only
    rw [hflush]
  · have hboth := (hsends.trans hsent).congr (and_iff_left trivial)
    rwa [append_nil] at hboth

/-- The header and the data of a response find room, the data behind what the send of the header
leaves. -/
def ClientInfo.Holds (client : ClientInfo) (r : Reply) : Prop :=
  urlGetHttpresp r.code r.sessionId r.data.length = [] ∨
    client.Fits (urlGetHttpresp r.code r.sessionId r.data.length) ∧
    r.head.leaves
      (client.writeDatasize + (urlGetHttpresp r.code r.sessionId r.data.length).length) +
        r.data.length ≤
      client.writeBufsize

theorem response_spec (hok : WriteOk client) (r : Reply) : ∃ ret client' events data,
    swiotHttpServerResponse client r = some (ret, client', events) ∧
    Sends (client.Holds r) client data events client' ∧
      (data = [] ∨ data = urlGetHttpresp r.code r.sessionId r.data.length ++ r.data) := by
  unfold swiotHttpServerResponse ClientInfo.Holds
  generalize urlGetHttpresp r.code r.sessionId r.data.length = head
  dsimp only
  split
  · rename_i hhead
    exact ⟨-1, client, [], [], rfl, (Sends.refl hok).congr (iff_of_true trivial (.inl hhead)),
      .inl rfl⟩
  · rename_i hhead
    obtain ⟨ret, client₁, events, heq, -, hsends, hleaves⟩ := send_spec hok head r.head r.now
    obtain ⟨ret', client₂, events', heq', -, hsends', -⟩ := send_spec hsends.ok r.data r.rest r.now
    refine ⟨ret + ret', client₂, events ++ events', head ++ r.data, ?_,
      (hsends.trans hsends').congr ?_, .inr rfl⟩
    · rw [heq, bind_eq_bind, bind_some]
      dsimp only
      rw [heq', bind_some]
    · rw [or_iff_right hhead]
      refine and_congr_right fun hfits => ?_
      rw [ClientInfo.Fits, hsends.bufsize, hleaves, min_eq_left hfits]

theorem check_same (client : ClientInfo) (now : Int) :
    SameWrite client (swiotCheckClient client now).2 ∧
    SameRead client (swiotCheckClient client now).2 := by
  unfold swiotCheckClient
  dsimp only
  split
  all_goals
    split
    all_goals exact ⟨⟨rfl, rfl, rfl⟩, ⟨rfl, rfl, rfl, rfl, rfl, rfl⟩⟩

theorem recv_same (client : ClientInfo) (receiving : Receiving) (now : Int) :
    SameWrite client (swiotClientRecv client receiving now).2.1 ∧
      (swiotClientRecv client receiving now).2.1.skt = client.skt ∧
      ∀ data, Moves True data (swiotClientRecv client receiving now).2.2 data := by
  cases receiving with
  | again | failed => exact ⟨⟨rfl, rfl, rfl⟩, rfl, .refl⟩
  | bytes got =>
    unfold swiotClientRecv
    dsimp only
    split
    · exact ⟨⟨rfl, rfl, rfl⟩, rfl, .refl⟩
    · exact ⟨⟨rfl, rfl, rfl⟩, rfl, fun data => .idle rfl rfl⟩

theorem SameRead.recv (h : SameRead client client') :
    (swiotClientRecv client' receiving now).1 = (swiotClientRecv client receiving now).1 := by
  cases receiving with
  | again | failed => rfl
  | bytes got =>
    unfold swiotClientRecv
    dsimp only
    rw [h.bufsize, h.datasize]
    split <;> rfl

theorem Found.same (h : Found client fresh hlen clen ok client') :
    SameWrite client client' ∧ client'.skt = client.skt := by
  cases h with
  | fits _ | grows _ _ _ _ | fails _ _ => exact ⟨⟨rfl, rfl, rfl⟩, rfl⟩

theorem parser_same (h : swiotParserPacket client fresh = some (client', events)) :
    SameWrite client client' ∧ client'.skt = client.skt ∧ ∀ data, Moves True data events data := by
  obtain ⟨ok, client₁, hheader, h⟩ := parser_inv h
  have hsame : SameWrite client client₁ ∧ client₁.skt = client.skt := by
    rcases parseHeader_inv hheader with ⟨-, rfl, -⟩ | ⟨-, hlen, clen, -, hfound⟩
    · exact ⟨⟨rfl, rfl, rfl⟩, rfl⟩
    · exact hfound.same
  rcases h with ⟨-, h⟩ | ⟨-, rfl, rfl⟩
  · rcases deliver_inv h with ⟨-, rfl, rfl⟩ | ⟨-, -, -, rfl, session, -, rfl⟩
    · exact ⟨hsame.1, hsame.2, .refl⟩
    · exact ⟨⟨hsame.1.buf, hsame.1.bufsize, hsame.1.datasize⟩, hsame.2, fun data => .idle rfl rfl⟩
  · exact ⟨hsame.1, hsame.2, .refl⟩

theorem SameWrite.sends (hwrite : SameWrite client client₁)
    (hread : SameRead client client₁) (h : Sends room client₁ data events client₂) :
    Sends room client data events client₂ := by
  refine ⟨h.ok, ?_, h.bufsize.trans hwrite.bufsize, ?_, hread.trans h.read, ?_, h.writing⟩
  · rw [← hwrite.datasize]
    exact h.datasize
  · rw [← hwrite.pending]
    exact h.moves
  · rw [← hwrite.datasize, ← hwrite.bufsize]
    exact h.bounds

/-- A response finds room for its header and its data, and a tick that ends the connection leaves
nothing behind. -/
def Roomy : Option Connection → Action → Prop
  | some c, .exchange now sending receiving =>
      if (swiotCheckClient c.client now).1 then
        (swiotClientRecv c.client receiving now).1 = true ∨
          sending.leaves c.client.writeDatasize = 0
      else c.client.writeDatasize = 0
  | some c, .respond r => c.client.Holds r
  | _, _ => True

theorem pending_eq_nil (hok : WriteOk client) : client.pending = [] ↔ client.writeDatasize = 0 := by
  rw [← length_eq_zero_iff, ← pending_length hok, Int.natCast_eq_zero]

theorem exchange_inv {c : Connection}
    (hok : WriteOk c.client) (h : c.exchange now sending receiving = some (events, next)) :
    c.parsing = false ∧ ∃ client₁ events₁, Sends True c.client [] events₁ client₁ ∧
    ((next = none ∧ events = events₁ ∧
        (.returned (-1) ∈ events ∨ (Roomy (some c) (.exchange now sending receiving) ↔
        client₁.pending = []))) ∨
      ∃ client₂ events₂, swiotClientRecv client₁ receiving now = (true, client₂, events₂) ∧
        next = some ⟨client₂, true⟩ ∧ events = events₁ ++ events₂ ∧
        Roomy (some c) (.exchange now sending receiving)) := by
  obtain ⟨hwrite, hread⟩ := check_same c.client now
  unfold Connection.exchange at h
  unfold Roomy
  dsimp only
  generalize swiotCheckClient c.client now = checked at h hwrite hread ⊢
  obtain ⟨alive, client₀⟩ := checked
  dsimp only at h hwrite hread ⊢
  split at h
  · cases h
  rename_i hparsing
  refine ⟨Bool.eq_false_iff.2 hparsing, ?_⟩
  cases alive with
  | false =>
    cases h
    exact ⟨c.client, [], .refl hok, .inl ⟨rfl, rfl, .inr (pending_eq_nil hok).symm⟩⟩
  | true =>
    obtain ⟨ret, client₁, events₁, heq, hret, hsends, hleaves⟩ :=
      send_spec (hwrite.ok hok) [] sending now
    have hfits : client₀.Fits [] := (Int.add_zero _).trans_le (hwrite.ok hok).le
    have hsent := (hwrite.sends hread hsends).congr (iff_of_true hfits trivial)
    have hleft := hleaves
    rw [min_eq_left hfits, length_nil, Nat.cast_zero, Int.add_zero, hwrite.datasize] at hleft
    refine ⟨client₁, events₁, hsent, ?_⟩
    rw [if_neg Bool.noConfusion, heq, bind_eq_bind, bind_some] at h
    dsimp only at h
    split at h
    · rename_i hminus
      cases h
      exact .inl ⟨rfl, rfl, .inl (hminus ▸ hret)⟩
    rw [if_pos rfl, ← hsent.read.recv, ← hleft, ← pending_eq_nil hsent.ok]
    generalize hrecv : swiotClientRecv client₁ receiving now = received at h ⊢
    obtain ⟨ok, client₂, events₂⟩ := received
    dsimp only at h ⊢
    cases h
    cases ok with
    | true => exact .inr ⟨client₂, events₂, rfl, rfl, rfl, .inl rfl⟩
    | false =>
      obtain rfl := recv_failed hrecv
      rw [append_nil]
      exact .inl ⟨rfl, rfl, .inr (or_iff_right Bool.false_ne_true)⟩

theorem parse_inv {c : Connection} (h : c.parse fresh = some (events, next)) :
    c.parsing = true ∧ ∃ client', swiotParserPacket c.client fresh = some (client', events) ∧
    next = some ⟨client', false⟩ := by
  unfold Connection.parse at h
  split at h
  · rename_i hparsing
    obtain ⟨⟨client', events'⟩, hparser, h⟩ := bind_eq_some_iff.1 h
    cases h
    exact ⟨hparsing, client', hparser, rfl⟩
  · cases h

theorem respond_inv {c : Connection} (hok : WriteOk c.client)
    (h : c.respond r = some (events, next)) :
    ∃ client' data, next = some { c with client := client' } ∧
    Sends (c.client.Holds r) c.client data events client' ∧
      (data = [] ∨ data = urlGetHttpresp r.code r.sessionId r.data.length ++ r.data) := by
  obtain ⟨ret, client', events', data, heq, hsends, hdata⟩ := response_spec hok r
  unfold Connection.respond at h
  rw [heq, bind_eq_bind, bind_some] at h
  cases h
  exact ⟨client', data, rfl, hsends.returned ret, hdata⟩

def pendingOf (s : Option Connection) : Bytes := s.elim [] (·.client.pending)

theorem step_moves {c : Connection} (hok : WriteOk c.client)
    (hstep : step (some c) a = some (events, next)) :
    (∀ c', next = some c' → WriteOk c'.client ∧ c'.client.skt = c.client.skt) ∧
      (next = none ∧ .returned (-1) ∈ events ∨ Moves (Roomy (some c) a) c.client.pending events
      (pendingOf next)) := by
  cases a with
  | exchange now sending receiving =>
    obtain ⟨-, client₁, events₁, hsends, ⟨rfl, rfl, hlost⟩ | ⟨client₂, events₂, hrecv, rfl, rfl,
      hroomy⟩⟩ :=
      exchange_inv hok hstep
    · refine ⟨fun c' hc' => (by cases hc'), hlost.imp (fun h => ⟨rfl, h⟩) fun hiff => ?_⟩
      have hwhole := hsends.moves.whole trivial
      constructor
      · intro hroomy
        rw [← hwhole, hiff.1 hroomy]
        rfl
      · intro hcut
        have hpos := length_pos_iff.2 fun hnil => hcut (hiff.2 hnil)
        rw [← hwhole, length_append, length_append]
        exact Nat.add_lt_add_left hpos _
    · obtain ⟨hsame, hskt, hmoves⟩ := recv_same client₁ receiving now
      rw [hrecv] at hsame hskt hmoves
      refine ⟨fun c' hc' => ?_, .inr ?_⟩
      · cases hc'
        exact ⟨hsame.ok hsends.ok, hskt.trans hsends.read.skt⟩
      · have hboth := hsends.moves.trans (hmoves client₁.pending)
        rw [← hsame.pending] at hboth
        exact hboth.congr (iff_of_true ⟨trivial, trivial⟩ hroomy)
  | parse fresh =>
    obtain ⟨-, client', hparser, rfl⟩ := parse_inv hstep
    obtain ⟨hsame, hskt, hmoves⟩ := parser_same hparser
    refine ⟨fun c' hc' => ?_, .inr ?_⟩
    · cases hc'
      exact ⟨hsame.ok hok, hskt⟩
    · change Moves True _ _ client'.pending
      rw [hsame.pending]
      exact hmoves c.client.pending
  | respond r =>
    obtain ⟨client', data, rfl, hsends, -⟩ := respond_inv hok hstep
    refine ⟨fun c' hc' => ?_, .inr hsends.moves⟩
    cases hc'
    exact ⟨hsends.ok, hsends.read.skt⟩

theorem active_ok (skt : Nat) (readJunk writeJunk : Bytes) :
    WriteOk (swiotActiveSkt skt readJunk writeJunk) :=
  ⟨Int.le_refl 0, (by decide : (0 : Int) ≤ 512),
    congrArg Nat.cast (resize_length [] writeJunk 0 512).symm⟩

def Connection.active (skt : Nat) (readJunk writeJunk : Bytes) : Connection :=
  ⟨swiotActiveSkt skt readJunk writeJunk, false⟩

theorem eventsOf_snoc : eventsOf (history ++ [(a, events)]) = eventsOf history ++ events := by
  simp [eventsOf]

instance (s : Option Connection) (a : Action) : Decidable (Roomy s a) := by
  unfold Roomy ClientInfo.Holds ClientInfo.Fits
  split <;> infer_instance

end SwApi.HttpServer
