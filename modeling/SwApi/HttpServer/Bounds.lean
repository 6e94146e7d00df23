import SwApi.HttpServer.Sends

/-! The buffers of a connection against any peer. -/
namespace SwApi.HttpServer
open Library List Option

structure ReadOk (client : ClientInfo) : Prop where
  nonneg : 0 ≤ client.readDatasize
  lt : client.readDatasize < client.readBufsize
  size : client.readBufsize = client.readBuf.length
  header : client.hlen ≤ 0 ∧ client.clen = -1 ∨ 0 < client.hlen ∧
    (client.clen = -1 ∨ 0 ≤ client.clen + client.hlen)

/-- The header of which `swiot_parser_packet` waits for the body, or the one it finds. -/
def ClientInfo.header (client : ClientInfo) : Option (Option (Nat × Int)) :=
  if 0 < client.hlen then some (some (client.hlen.toNat, client.clen)) else client.findHeader

/-- What `swiot_parser_packet` reads is defined, and a length that it finds gives no negative size
and no overflow. -/
def Readable (client : ClientInfo) : Prop :=
  ∃ found ∈ client.header, ∀ h ∈ found,
    (client.hlen ≤ 0 → (h.2 = -1 ∨ 0 ≤ h.2 + h.1) ∧ h.2 + h.1 + client.readDatasize + 68 < 2^31) ∧
    (h.2 + h.1 ≤ client.readDatasize → (swiotCommonGetval client.readBuf h.1 sessionId 64).isSome)
  deriving Decidable

section
variable {client : ClientInfo}

theorem SameRead.ok (h : SameRead client client') (hok : ReadOk client) : ReadOk client' := by
  obtain ⟨-, hbuf, hbufsize, hdatasize, hhlen, hclen⟩ := h
  obtain ⟨hnonneg, hlt, hsize, hheader⟩ := hok
  rw [← hdatasize] at hnonneg hlt
  rw [← hbufsize] at hlt hsize
  rw [← hbuf] at hsize
  rw [← hhlen, ← hclen] at hheader
  exact ⟨hnonneg, hlt, hsize, hheader⟩

theorem ReadOk.extended (hok : ReadOk client)
    (hroom : (data.length : Int) ≤ client.readBufsize - client.readDatasize - 1)
    (now : Int) : ReadOk (client.extended data now) := by
  obtain ⟨hnonneg, hlt, hsize, hheader⟩ := hok
  refine ⟨?_, ?_, ?_, hheader⟩
  · exact Int.add_nonneg hnonneg (Int.natCast_nonneg _)
  · dsimp only [ClientInfo.extended]
    omega
  · dsimp only [ClientInfo.extended]
    rw [overwrite_length, overwrite_length]
    exact hsize

theorem recv_bounds (hok : ReadOk client)
    (h : swiotClientRecv client receiving now = (true, client', events)) : ReadOk client' ∧
    ∀ e ∈ events, e.InBounds := by
  rcases recv_inv h with ⟨rfl, rfl⟩ | ⟨data, -, hroom, rfl, rfl⟩
  · exact ⟨hok, forall_mem_nil _⟩
  · refine ⟨hok.extended hroom now, ?_⟩
    obtain ⟨hnonneg, -, hsize, -⟩ := hok
    simp only [forall_mem_cons]
    exact ⟨trivial, ⟨hnonneg, Int.natCast_nonneg _, by omega⟩, ⟨by omega, by decide, by omega⟩,
      forall_mem_nil _⟩

theorem findHeader_pos (h : client.findHeader = some (some (hlen, clen))) : 0 < hlen := by
  unfold ClientInfo.findHeader at h
  split at h
  · cases h
  split at h
  · cases h
  split at h
  · obtain ⟨value, -, h⟩ := bind_eq_some_iff.1 h
    cases h
    exact Nat.succ_pos _
  · cases h

theorem aglin_bounds (x : Int) : x < aglin x ∧ aglin x ≤ x + 4 := by
  unfold aglin
  omega

theorem Found.readOk (h : Found client (some junk) hlen clen ok client')
    (hok : ReadOk client) (hpos : 0 < hlen) (hsize : clen = -1 ∨ 0 ≤ clen + hlen) : ok = true ∧
    ReadOk client' := by
  have hheader : (hlen : Int) ≤ 0 ∧ clen = -1 ∨ 0 < (hlen : Int) ∧ (clen = -1 ∨ 0 ≤ clen + hlen) :=
    .inr ⟨by omega, hsize⟩
  cases h with
  | fits _ => exact ⟨rfl, hok.nonneg, hok.lt, hok.size, hheader⟩
  | fails _ hfresh => cases hfresh
  | grows hlarge _ hnew _ =>
    obtain ⟨hnonneg, hlt, -, -⟩ := hok
    obtain ⟨hlow, -⟩ := aglin_bounds (clen + hlen + client.readDatasize + 64)
    refine ⟨rfl, hnonneg, ?_, ?_, hheader⟩
    · dsimp only [ClientInfo.grown, ClientInfo.withHeader]
      omega
    · dsimp only [ClientInfo.grown, ClientInfo.withHeader]
      rw [resize_length]
      omega

theorem ReadOk.shifted (hok : ReadOk client) {size : Int} (hsize : 0 ≤ size)
    (hle : size ≤ client.readDatasize) : ReadOk (client.shifted size) := by
  obtain ⟨-, hlt, hlength, -⟩ := hok
  refine ⟨?_, ?_, ?_, .inl ⟨(by decide : (-1 : Int) ≤ 0), rfl⟩⟩
  · exact Int.sub_nonneg_of_le hle
  · dsimp only [ClientInfo.shifted]
    omega
  · dsimp only [ClientInfo.shifted]
    rw [overwrite_length]
    exact hlength

theorem deliver_bounds (hok : ReadOk client) (h : client.deliver = some (client', events)) :
    ReadOk client' ∧ ∀ e ∈ events, e.InBounds := by
  rcases deliver_inv h with ⟨-, rfl, rfl⟩ | ⟨-, hwhole, hnonneg, rfl, session, -, rfl⟩
  · exact ⟨hok, forall_mem_nil _⟩
  · refine ⟨hok.shifted hnonneg hwhole, ?_⟩
    obtain ⟨hdata, hlt, hlength, -⟩ := hok
    exact forall_mem_cons.2 ⟨trivial, forall_mem_singleton.2 ⟨Int.le_refl 0, by omega, by omega⟩⟩

def SessionOk (client : ClientInfo) : Prop :=
  client.clen + client.hlen ≤ client.readDatasize →
    (swiotCommonGetval client.readBuf client.hlen.toNat sessionId 64).isSome

theorem parseHeader_defined (hok : ReadOk client) (hread : Readable client) :
    ∃ client₁, client.parseHeader (some junk) = some (true, client₁) ∧ ReadOk client₁ ∧
      (client₁.clen ≠ -1 → SessionOk client₁) := by
  obtain ⟨found, hfound, hread⟩ := hread
  unfold ClientInfo.header at hfound
  unfold ClientInfo.parseHeader
  split at hfound
  · rename_i hpos
    cases hfound
    refine ⟨client, if_pos hpos, hok, fun _ => ?_⟩
    have hsession := (hread _ rfl).2
    dsimp only at hsession
    rwa [Int.toNat_of_nonneg (Int.le_of_lt hpos)] at hsession
  · rename_i hpos
    rw [if_neg hpos, hfound, bind_eq_bind, bind_some]
    cases found with
    | none =>
      refine ⟨client, rfl, hok, fun hclen => ?_⟩
      exact absurd (hok.header.resolve_right fun h => hpos h.1).2 hclen
    | some h =>
      obtain ⟨hlen, clen⟩ := h
      obtain ⟨hlengths, hsession⟩ := hread _ rfl
      obtain ⟨hsize, hfits⟩ := hlengths (Int.not_lt.1 hpos)
      have hlenpos := findHeader_pos hfound
      have hdata := hok.nonneg
      have hlt := hok.lt
      dsimp only at hsize hfits hsession ⊢
      rw [show exactInt (clen + hlen) = some (clen + hlen) from if_pos ⟨by omega, by omega⟩,
        bind_eq_bind, bind_some]
      split
      · rename_i hlarge
        obtain ⟨hlow, hhigh⟩ := aglin_bounds (clen + hlen + client.readDatasize + 64)
        rw [show exactInt (aglin (clen + hlen + client.readDatasize + 64)) =
          some (aglin (clen + hlen + client.readDatasize + 64))
          from if_pos ⟨by omega, by omega⟩, bind_some]
        refine ⟨_, rfl, (Found.readOk (.grows hlarge rfl rfl (by omega)) hok hlenpos hsize).2,
          fun _ hwhole => ?_⟩
        dsimp only at hlarge hwhole
        omega
      · rename_i hsmall
        have hnext : Found client (some junk) hlen clen true (client.withHeader hlen clen) :=
          .fits (Int.not_le.1 hsmall)
        exact ⟨_, rfl, (hnext.readOk hok hlenpos hsize).2, fun _ => hsession⟩

theorem deliver_defined (hok : ReadOk client) (hsession : client.clen ≠ -1 → SessionOk client) :
    ∃ client' events, client.deliver = some (client', events) := by
  unfold ClientInfo.deliver
  dsimp only
  split
  · rename_i hwhole
    obtain ⟨session, hsession⟩ := isSome_iff_exists.1 (hsession hwhole.1 hwhole.2)
    rw [hsession, bind_eq_bind, bind_some, if_neg]
    · exact ⟨_, _, rfl⟩
    · have hheader := hok.header
      omega
  · exact ⟨_, _, rfl⟩

theorem parser_bounds (hok : ReadOk client) (hread : Readable client) (junk : Bytes) :
    ∃ client' events, swiotParserPacket client (some junk) = some (client', events) ∧
      ReadOk client' ∧ ∀ e ∈ events, e.InBounds := by
  obtain ⟨client₁, hheader, hok₁, hsession⟩ := parseHeader_defined hok hread
  obtain ⟨client', events, hdeliver⟩ := deliver_defined hok₁ hsession
  refine ⟨client', events, ?_, deliver_bounds hok₁ hdeliver⟩
  rw [swiotParserPacket, hheader, bind_eq_bind, bind_some]
  exact hdeliver

end

structure Bounded (client : ClientInfo) : Prop where
  read : ReadOk client
  write : WriteOk client

/-- Rounds that can be parsed, with memory for the buffer, and responses that leave room in
`write_buf`. -/
def Sane : Option Connection → Action → Prop
  | none, _ => False
  | some c, .exchange _ _ _ => c.parsing = false
  | some c, .parse fresh => c.parsing = true ∧ fresh ≠ none ∧ Readable c.client
  | some c, .respond r =>
      c.client.writeDatasize + (urlGetHttpresp r.code r.sessionId r.data.length ++ r.data).length <
        c.client.writeBufsize

section
variable {c : Connection}

theorem exchange_defined (hok : WriteOk c.client) (hparsing : c.parsing = false) :
    ∃ events next, c.exchange now sending receiving = some (events, next) := by
  obtain ⟨hwrite, -⟩ := check_same c.client now
  unfold Connection.exchange
  generalize swiotCheckClient c.client now = checked at hwrite ⊢
  obtain ⟨alive, client₀⟩ := checked
  dsimp only at hwrite ⊢
  rw [if_neg (Bool.eq_false_iff.1 hparsing)]
  split
  · exact ⟨_, _, rfl⟩
  · obtain ⟨ret, client₁, events₁, heq, -⟩ := send_spec (hwrite.ok hok) [] sending now
    rw [heq, bind_eq_bind, bind_some]
    dsimp only
    split <;> exact ⟨_, _, rfl⟩

theorem step_bounds (hok : Bounded c.client) (hsane : Sane (some c) a) :
    ∃ events next, step (some c) a = some (events, next) ∧
    (∀ e ∈ events, e.InBounds) ∧ ∀ c', next = some c' → Bounded c'.client := by
  cases a with
  | exchange now sending receiving =>
    obtain ⟨events, next, heq⟩ := exchange_defined hok.write hsane
    refine ⟨events, next, heq, ?_⟩
    obtain ⟨-, client₁, events₁, hsends, hnext⟩ := exchange_inv hok.write heq
    have hstores := hsends.bounds (.inl rfl)
    rcases hnext with ⟨rfl, rfl, -⟩ | ⟨client₂, events₂, hrecv, rfl, rfl, -⟩
    · exact ⟨hstores, fun c' hc' => by cases hc'⟩
    · obtain ⟨hread, hstores'⟩ := recv_bounds (hsends.read.ok hok.read) hrecv
      have hsame := (recv_same client₁ receiving now).1
      rw [hrecv] at hsame
      refine ⟨forall_mem_append.2 ⟨hstores, hstores'⟩, fun c' hc' => ?_⟩
      cases hc'
      exact ⟨hread, hsame.ok hsends.ok⟩
  | parse fresh =>
    obtain ⟨hparsing, hfresh, hreadable⟩ := hsane
    obtain ⟨junk, rfl⟩ := ne_none_iff_exists'.1 hfresh
    obtain ⟨client', events, hparser, hread, hstores⟩ := parser_bounds hok.read hreadable junk
    refine ⟨events, some ⟨client', false⟩, ?_, hstores, fun c' hc' => ?_⟩
    · rw [step, Connection.parse, if_pos hparsing, hparser]
      rfl
    · cases hc'
      exact ⟨hread, (parser_same hparser).1.ok hok.write⟩
  | respond r =>
    obtain ⟨ret, client', events, data, heq, hsends, hdata⟩ := response_spec hok.write r
    have hstores := hsends.bounds (hdata.imp_right fun hdata => by rw [hdata]; exact hsane)
    refine ⟨events ++ [.returned ret], some { c with client := client' }, ?_, ?_, fun c' hc' => ?_⟩
    · rw [step, Connection.respond, heq]
      rfl
    · exact forall_mem_append.2 ⟨hstores, forall_mem_singleton.2 trivial⟩
    · cases hc'
      exact ⟨hsends.read.ok hok.read, hsends.ok⟩

theorem active_bounded (skt : Nat) (readJunk writeJunk : Bytes) :
    Bounded (Connection.active skt readJunk writeJunk).client :=
  ⟨⟨Int.le_refl 0, (by decide : (0 : Int) < 512),
    congrArg Nat.cast (resize_length [] readJunk 0 512).symm,
    .inl ⟨(by decide : (-1 : Int) ≤ 0), rfl⟩⟩, active_ok skt readJunk writeJunk⟩

end

/-- Whatever is received: in every state the sizes are in their bounds, every store was inside of
its buffer, and every step that is allowed is defined. -/
theorem buffers_bounded {skt : Nat} {readJunk writeJunk : Bytes}
    {history : List (Action × List Event)} {s : Option Connection}
    (hrun : Run step Sane (some (.active skt readJunk writeJunk)) history s) :
    (∀ e ∈ eventsOf history, e.InBounds) ∧ ∀ c, s = some c →
      (0 ≤ c.client.readDatasize ∧ c.client.readDatasize < c.client.readBufsize ∧
        c.client.readBufsize = c.client.readBuf.length) ∧
      (0 ≤ c.client.writeDatasize ∧ c.client.writeDatasize ≤ c.client.writeBufsize ∧
        c.client.writeBufsize = c.client.writeBuf.length) ∧
      ∀ a, Sane s a → ∃ events next, step s a = some (events, next) := by
  have hinv : (∀ e ∈ eventsOf history, e.InBounds) ∧ ∀ c, s = some c → Bounded c.client := by
    refine Run.invariant (fun history s => (∀ e ∈ eventsOf history, e.InBounds) ∧ ∀ c, s = some c →
      Bounded c.client) ?_ ?_ hrun
    · refine ⟨forall_mem_nil _, fun c hc => ?_⟩
      cases hc
      exact active_bounded skt readJunk writeJunk
    · intro history s a events s' hinv hsane hstep
      cases s with
      | none => exact hsane.elim
      | some c =>
        obtain ⟨events', next, hstep', hstores, hnext⟩ := step_bounds (hinv.2 c rfl) hsane
        cases hstep.symm.trans hstep'
        rw [eventsOf_snoc]
        exact ⟨forall_mem_append.2 ⟨hinv.1, hstores⟩, hnext⟩
  refine ⟨hinv.1, fun c hc => ?_⟩
  subst hc
  have hbounded := hinv.2 c rfl
  refine ⟨⟨hbounded.read.nonneg, hbounded.read.lt, hbounded.read.size⟩,
    ⟨hbounded.write.nonneg, hbounded.write.le, hbounded.write.size⟩, fun a hsane => ?_⟩
  obtain ⟨events, next, hstep, -⟩ := step_bounds hbounded hsane
  exact ⟨events, next, hstep⟩

instance (e : Event) : Decidable e.InBounds := by
  unfold Event.InBounds
  split <;> infer_instance

instance (s : Option Connection) (a : Action) : Decidable (Sane s a) := by
  rcases s with _ | _ <;> rcases a with _ | _ <;> dsimp only [Sane] <;> infer_instance

def talk : List Action :=
  [.exchange 1 .again (.bytes (text "POST /a HTTP/1.1\r\nContent-Length: 3\r\n\r\nabc")),
    .parse (some []),
    .respond ⟨1, 200, text "ok", 2, .room 20, .room 20⟩, .exchange 3 (.room 1000) .again]

theorem buffers_bounded_talk : ∃ history s, Run step Sane (some (.active 5 [] [])) history s ∧
    history.map Prod.fst = talk ∧ ∀ e ∈ eventsOf history, e.InBounds := by
  refine exists_run talk (fun history _ => history.map Prod.fst = talk) (by decide +kernel) ?_
  intro history s hrun hactions
  exact ⟨hactions, (buffers_bounded hrun).1⟩

/-- A response that does not fit puts its NUL behind the buffer. -/
theorem long_response_overruns : ∃ history s,
    Run step (fun _ _ => True) (some (.active 5 [] [])) history s ∧
    history.map Prod.fst = [.respond ⟨1, 200, replicate 400 65, 1, .again, .again⟩] ∧
    ∃ e ∈ eventsOf history, ¬e.InBounds := by
  exact exists_run [.respond ⟨1, 200, replicate 400 65, 1, .again, .again⟩] _ (by decide +kernel)
    fun _ => id

end SwApi.HttpServer
