import SwApi.HttpServer.Model

/-! What one call of `swiot_client_recv` and one of `swiot_parser_packet` can do. -/
namespace SwApi.HttpServer
open Library Option

variable {client' : ClientInfo}

theorem exactInt_eq_some : exactInt x = some y ↔ (-2^31 ≤ x ∧ x < 2^31) ∧ x = y := by
  unfold exactInt
  split
  · rename_i h
    exact ⟨fun heq => ⟨h, some.inj heq⟩, fun heq => congrArg some heq.2⟩
  · rename_i h
    exact ⟨fun heq => absurd heq.symm (some_ne_none y), fun heq => absurd heq.1 h⟩

def ClientInfo.extended (client : ClientInfo) (data : Bytes) (now : Int) : ClientInfo :=
  { client with
    readBuf := overwrite (overwrite client.readBuf client.readDatasize.toNat data)
      (client.readDatasize + data.length).toNat [0]
    readDatasize := client.readDatasize + data.length
    dataTick := now }

theorem recv_inv (h : swiotClientRecv client receiving now = (true, client', events)) :
    (client' = client ∧ events = []) ∨
    ∃ data, data ≠ [] ∧ (data.length : Int) ≤ client.readBufsize - client.readDatasize - 1 ∧
      client' = client.extended data now ∧
      events = [.received data, .stored .read client.readDatasize data.length client.readBuf.length,
        .stored .read (client.readDatasize + data.length) 1 client.readBuf.length] := by
  cases receiving with
  | failed => cases h
  | again =>
    cases h
    exact .inl ⟨rfl, rfl⟩
  | bytes data =>
    unfold swiotClientRecv at h
    dsimp only at h
    split at h
    · cases h
    · rename_i hdata
      cases h
      have hlen : (data.take (client.readBufsize - client.readDatasize - 1).toNat).length ≠ 0 :=
        fun hnil => hdata (List.length_eq_zero_iff.1 hnil)
      have hle := List.length_take_le (client.readBufsize - client.readDatasize - 1).toNat data
      exact .inr ⟨_, hdata, by omega, rfl, rfl⟩

theorem recv_failed (h : swiotClientRecv client receiving now = (false, client', events)) :
    events = [] := by
  cases receiving with
  | failed =>
    cases h
    rfl
  | again => cases h
  | bytes data =>
    unfold swiotClientRecv at h
    dsimp only at h
    split at h
    · cases h
      rfl
    · cases h

def ClientInfo.withHeader (client : ClientInfo) (hlen : Nat) (clen : Int) : ClientInfo :=
  { client with hlen := hlen, clen := clen }

def ClientInfo.grown (client : ClientInfo) (junk : Bytes) (size : Int) : ClientInfo :=
  { client with readBuf := resize client.readBuf junk 0 size.toNat, readBufsize := size }

def ClientInfo.shifted (client : ClientInfo) (size : Int) : ClientInfo :=
  { client with
    readBuf := overwrite client.readBuf 0 ((client.readBuf.drop size.toNat).take
      (client.readDatasize - size).toNat)
    readDatasize := client.readDatasize - size
    hlen := -1
    clen := -1 }

def ClientInfo.packet (client : ClientInfo) (session : Option Bytes) : Packet :=
  ⟨(swiotGetPath client.readBuf client.hlen.toNat).1,
    (swiotGetPath client.readBuf client.hlen.toNat).2,
    client.readBuf.take (client.clen + client.hlen).toNat, client.hlen, client.clen + client.hlen,
      session.elim 0 atoi⟩

inductive Found (client : ClientInfo) (fresh : Option Bytes) (hlen : Nat) (clen : Int) : Bool →
    ClientInfo → Prop where
  | fits : clen + hlen < client.readBufsize →
    Found client fresh hlen clen true (client.withHeader hlen clen)
  | grows {junk : Bytes} {size : Int} : client.readBufsize ≤ clen + hlen → fresh = some junk →
      size = aglin (clen + hlen + client.readDatasize + 64) → size < 2^31 →
      Found client fresh hlen clen true ((client.withHeader hlen clen).grown junk size)
  | fails : client.readBufsize ≤ clen + hlen → fresh = none →
      Found client fresh hlen clen false { client.withHeader hlen clen with readBuf := [] }

theorem parseHeader_inv (h : client.parseHeader fresh = some (ok, client')) :
    (ok = true ∧ client' = client ∧ (0 < client.hlen ∨ client.findHeader = some none)) ∨
    (client.hlen ≤ 0 ∧ ∃ hlen clen, client.findHeader = some (some (hlen, clen)) ∧
    Found client fresh hlen clen ok client') := by
  unfold ClientInfo.parseHeader at h
  split at h
  · rename_i hpos
    cases h
    exact .inl ⟨rfl, rfl, .inl hpos⟩
  · rename_i hpos
    obtain ⟨found, hfound, h⟩ := bind_eq_some_iff.1 h
    match found with
    | none =>
      cases h
      exact .inl ⟨rfl, rfl, .inr hfound⟩
    | some (hlen, clen) =>
      refine .inr ⟨Int.not_lt.1 hpos, hlen, clen, hfound, ?_⟩
      dsimp only at h
      obtain ⟨total, htotal, h⟩ := bind_eq_some_iff.1 h
      obtain ⟨-, rfl⟩ := exactInt_eq_some.1 htotal
      split at h
      · rename_i hsmall
        obtain ⟨size, hsize, h⟩ := bind_eq_some_iff.1 h
        obtain ⟨⟨-, hlt⟩, rfl⟩ := exactInt_eq_some.1 hsize
        cases fresh with
        | none =>
          cases h
          exact .fails hsmall rfl
        | some junk =>
          cases h
          exact .grows hsmall rfl rfl hlt
      · rename_i hsmall
        cases h
        exact .fits (Int.not_le.1 hsmall)

theorem deliver_inv (h : client.deliver = some (client', events)) :
    (¬(client.clen ≠ -1 ∧ client.clen + client.hlen ≤ client.readDatasize) ∧ client' = client ∧
    events = []) ∨
    (client.clen ≠ -1 ∧ client.clen + client.hlen ≤ client.readDatasize ∧
      0 ≤ client.clen + client.hlen ∧ client' = client.shifted (client.clen + client.hlen) ∧
      ∃ session, swiotCommonGetval client.readBuf client.hlen.toNat sessionId 64 = some session ∧
        events = [.packet (client.packet session),
          .stored .read 0 (client.readDatasize - (client.clen + client.hlen))
          client.readBuf.length]) := by
  unfold ClientInfo.deliver at h
  dsimp only at h
  split at h
  · rename_i hwhole
    obtain ⟨session, hsession, h⟩ := bind_eq_some_iff.1 h
    split at h
    · cases h
    · rename_i hnonneg
      cases h
      exact .inr ⟨hwhole.1, hwhole.2, Int.not_lt.1 hnonneg, rfl, session, hsession, rfl⟩
  · rename_i hwhole
    cases h
    exact .inl ⟨hwhole, rfl, rfl⟩

theorem parser_inv (h : swiotParserPacket client fresh = some (client', events)) :
    ∃ ok client₁, client.parseHeader fresh = some (ok, client₁) ∧
      ((ok = true ∧ client₁.deliver = some (client', events)) ∨
      (ok = false ∧ client' = client₁ ∧ events = [])) := by
  obtain ⟨⟨ok, client₁⟩, hheader, h⟩ := bind_eq_some_iff.1 h
  refine ⟨ok, client₁, hheader, ?_⟩
  dsimp only at h
  split at h
  · rename_i hok
    exact .inl ⟨hok, h⟩
  · rename_i hok
    cases h
    exact .inr ⟨Bool.eq_false_iff.2 hok, rfl, rfl⟩

end SwApi.HttpServer
