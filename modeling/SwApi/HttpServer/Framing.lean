import SwApi.HttpServer.Bounds
import SwApi.HttpServer.Field
import SwApi.Library.Lists
import SwApi.Url.Text

/-! The requests of one connection: each reaches the callback once and in order, however they are
split into receives. -/
namespace SwApi.HttpServer
open Library List
open Url (cstr cstr_append cstr_terminated strstr strstr_place strstr_append strstr_before)

/-- A header that ends with its first empty line, with at most 500 bytes before that, and a body. -/
structure Request where
  header : Bytes
  body : Bytes
  nulFree : 0 ∉ header
  short : header.length ≤ 504
  ended : strstr crlfCrlf header = some (header.length - 4)

def Request.bytes (r : Request) : Bytes := r.header ++ r.body

/-- The request begins with its request line. Each line that begins with `Content-Length` gives the
length of the body, with at most 63 digits; without one there is no body. Each line with a
`SessionId` has a value, and without one the body does not begin like one. -/
structure Plain (r : Request) : Prop where
  begins : ∀ c ∈ r.header.head?, isBlank c = false
  named : ¬contentLength <+: r.header ∧ ¬sessionId <+: r.header
  lengths : ∀ s ∈ lineStarts true r.header, contentLength <+: s → fieldLength s = some r.body.length
  absent : (∀ s ∈ lineStarts true r.header, ¬contentLength <+: s) → r.body = []
  sessions : ∀ s ∈ lineStarts true r.header, Matches sessionId s → HasValue s
  body : (∀ s ∈ lineStarts true r.header, ¬Matches sessionId s) → r.body.dropWhile isBlank ≠ [] →
    ¬(r.body.dropWhile isBlank).take 9 <+: sessionId
  size : r.body.length ≤ 2^29

def stream (requests : List Request) : Bytes := requests.flatMap Request.bytes

section
variable {r : Request}

theorem Request.header_end (r : Request) : ∃ s, r.header = s ++ crlfCrlf := by
  obtain ⟨t, ht⟩ := strstr_place r.ended
  have hlength := congrArg length ht
  rw [length_append, length_drop] at hlength
  have hfour : crlfCrlf.length = 4 := rfl
  have htnil : t = [] := length_eq_zero_iff.1 (by omega)
  rw [htnil, append_nil] at ht
  exact ⟨r.header.take (r.header.length - 4), by rw [ht, take_append_drop]⟩

theorem Request.four_le (r : Request) : 4 ≤ r.header.length := by
  obtain ⟨s, hs⟩ := r.header_end
  rw [hs, length_append]
  exact Nat.le_add_left 4 s.length

theorem Request.last (r : Request) : ∀ c ∈ r.header.getLast?, isNewline c = true := by
  obtain ⟨s, hs⟩ := r.header_end
  rw [hs, getLast?_append]
  rintro c ⟨⟩
  rfl

theorem Request.prefix_header (hname : ∀ c ∈ name, endsLine c = false)
    (hdata : data <+: r.header ++ x) (h : name <+: data ++ 0 :: junk) : name <+: r.header := by
  obtain ⟨s, hs⟩ := r.header_end
  have hfirst := ((prefix_line hname rfl data junk).1 h).trans hdata
  rw [hs, append_assoc] at hfirst
  rw [hs]
  exact ((prefix_line hname rfl s _).1 hfirst).trans (prefix_append s _)

theorem not_name_prefix (hname : ∀ c ∈ name, endsLine c = false) (hne : name ≠ [])
    (hrest : ∀ r ∈ rest, ¬name <+: r.header) (hdata : data <+: stream rest) :
    ¬name <+: data ++ 0 :: junk := by
  intro h
  cases rest with
  | nil =>
    have hnil := prefix_nil.1 hdata
    subst hnil
    exact hne (prefix_nil.1 ((prefix_line hname rfl [] junk).1 h))
  | cons r rest =>
    refine hrest r mem_cons_self (r.prefix_header hname (x := r.body ++ stream rest) ?_ h)
    rwa [← append_assoc]

theorem dropWhile_blank (hrest : ∀ r ∈ rest, Plain r) (hdata : data <+: stream rest) :
    (data ++ 0 :: junk).dropWhile isBlank = data ++ 0 :: junk := by
  cases data with
  | nil => rfl
  | cons c data =>
    cases rest with
    | nil => exact absurd (prefix_nil.1 hdata) (cons_ne_nil c data)
    | cons r rest =>
      have hc : isBlank c = false := by
        apply (hrest r mem_cons_self).begins
        obtain ⟨t, ht⟩ := hdata
        have hfour := r.four_le
        rw [stream, flatMap_cons, Request.bytes, append_assoc] at ht
        cases hheader : r.header with
        | nil =>
          rw [hheader] at hfour
          exact absurd hfour (by decide)
        | cons d header =>
          rw [hheader, cons_append, cons_append] at ht
          obtain ⟨rfl, -⟩ := cons.inj ht
          rfl
      simp [hc]

end

def nextHeader (rest : List Request) (data : Bytes) : Option (Nat × Int) :=
  rest.head?.bind fun r => if r.header.length ≤ data.length then
    some (r.header.length, (r.body.length : Int)) else none

section
variable {r : Request} {client : ClientInfo}

theorem strstr_partial (hdata : data <+: r.header) (hlt : data.length < r.header.length) :
    strstr crlfCrlf ((data ++ 0 :: junk).takeWhile (· != 0)) = none := by
  have hfour := r.four_le
  rw [← cstr, cstr_terminated fun h => r.nulFree (hdata.subset h)]
  refine strstr_before (cons_ne_nil _ _) r.ended hdata ?_
  have hfour' : crlfCrlf.length = 4 := rfl
  omega

theorem Plain.getval_length {tail : Bytes} (hr : Plain r) (hplain : ∀ r ∈ rest, Plain r)
    (htail : tail <+: r.body ++ stream rest) (junk : Bytes) : ∃ value,
      swiotCommonGetval (r.header ++ (tail ++ 0 :: junk)) r.header.length contentLength 64 =
      some value ∧ value.elim 0 atoi = (r.body.length : Int) := by
  refine HttpServer.getval_length r.last r.nulFree (mem_append_right tail mem_cons_self)
    (fun hnone => ?_) hr.lengths
    (fun hnone => by rw [hr.absent hnone]; rfl) (by have := hr.size; omega)
  rw [hr.absent hnone, nil_append] at htail
  rw [dropWhile_blank hplain htail]
  exact not_name_prefix (fun c hc => (contentLength_plain c hc).1) (by decide +kernel)
    (fun r hr => (hplain r hr).named.1) htail

theorem sessionId_length : sessionId.length = 9 := by
  decide +kernel

theorem Plain.getval_session {tail : Bytes} (hr : Plain r) (hplain : ∀ r ∈ rest, Plain r)
    (htail : tail <+: stream rest) :
    (swiotCommonGetval (r.header ++ (r.body ++ tail ++ 0 :: junk)) r.header.length
      sessionId 64).isSome := by
  refine HttpServer.getval_session r.last r.nulFree (mem_append_right _ mem_cons_self)
    (fun hnone hprefix => ?_) hr.sessions
  rw [append_assoc, dropWhile_append] at hprefix
  split at hprefix
  · rw [dropWhile_blank hplain htail] at hprefix
    exact not_name_prefix sessionId_plain (by decide +kernel)
      (fun r hr => (hplain r hr).named.2) htail hprefix
  · rename_i hblank
    apply hr.body hnone
    · intro hnil
      rw [hnil] at hblank
      exact hblank rfl
    · refine prefix_of_prefix_length_le (( take_prefix 9 _).trans (prefix_append _ _)) hprefix ?_
      rw [sessionId_length]
      exact length_take_le 9 _

theorem findHeader_next (hplain : ∀ r ∈ rest, Plain r) (hdata : data <+: stream rest)
    (hbuf : client.readBuf = data ++ 0 :: junk) (hsize : client.readDatasize = data.length) :
    client.findHeader = some (nextHeader rest data) := by
  unfold ClientInfo.findHeader
  rw [hbuf, if_neg (not_not.2 (mem_append_right data mem_cons_self))]
  cases rest with
  | nil =>
    have hnil := prefix_nil.1 hdata
    subst hnil
    rfl
  | cons r rest =>
    obtain ⟨hr, hrest⟩ := forall_mem_cons.1 hplain
    rw [stream, flatMap_cons, Request.bytes, append_assoc] at hdata
    rw [nextHeader, head?_cons, Option.bind_some]
    by_cases hwhole : r.header.length ≤ data.length
    · obtain ⟨tail, rfl⟩ := prefix_of_prefix_length_le (prefix_append r.header _) hdata hwhole
      rw [prefix_append_right_inj] at hdata
      obtain ⟨value, hvalue, hlength⟩ := hr.getval_length hrest hdata junk
      have hfour := r.four_le
      rw [if_pos hwhole, append_assoc, ← cstr, cstr_append r.nulFree, strstr_append r.ended]
      dsimp only
      rw [if_pos (by omega), Nat.sub_add_cancel hfour, hvalue, Option.bind_eq_bind,
        Option.bind_some, hlength]
    · have hpart := prefix_of_prefix_length_le hdata (prefix_append r.header _) (by omega)
      rw [if_neg hwhole, strstr_partial hpart (by omega)]

end

def ClientInfo.data (client : ClientInfo) : Bytes := client.readBuf.take client.readDatasize.toNat

def ClientInfo.terminated (client : ClientInfo) : ClientInfo :=
  { client with readBuf := client.readBuf.set client.readDatasize.toNat 0 }

/-- The parser reads what it would read with a NUL behind the data. -/
def Settled (client : ClientInfo) : Prop :=
  client.header = client.terminated.header ∧ ∀ found ∈ client.header, ∀ h ∈ found,
    h.2 + h.1 ≤ client.readDatasize →
    swiotCommonGetval client.readBuf h.1 sessionId 64 = swiotCommonGetval client.terminated.readBuf
      h.1 sessionId 64
  deriving Decidable

/-- The client has the beginning of the requests `rest`; when it waits for a body it is that of the
first one. -/
structure Waits (rest : List Request) (client : ClientInfo) : Prop where
  ok : ReadOk client
  low : 512 ≤ client.readBufsize
  high : client.readBufsize ≤ 2^30 + 1100
  header : client.hlen ≤ 0 ∨ ∃ r, rest.head? = some r ∧ client.hlen = r.header.length ∧
    client.clen = r.body.length ∧
    client.clen + client.hlen < client.readBufsize ∧ r.header.length ≤ client.data.length

theorem data_length (hok : ReadOk client) : (client.data.length : Int) = client.readDatasize := by
  obtain ⟨hnonneg, hlt, hsize, -⟩ := hok
  rw [ClientInfo.data, length_take]
  omega

theorem terminated_buf (hok : ReadOk client) :
    ∃ junk, client.terminated.readBuf = client.data ++ 0 :: junk := by
  obtain ⟨hnonneg, hlt, hsize, -⟩ := hok
  refine ⟨client.readBuf.drop (client.readDatasize.toNat + 1), ?_⟩
  rw [ClientInfo.terminated, ClientInfo.data]
  exact set_eq_take_append_cons_drop.trans (if_pos (by omega))

theorem nextHeader_inv (hnext : nextHeader rest data = some h) :
    ∃ r rest', rest = r :: rest' ∧ h = (r.header.length, (r.body.length : Int)) ∧
    r.header.length ≤ data.length := by
  obtain ⟨r, hr, hfound⟩ := Option.bind_eq_some_iff.1 hnext
  obtain ⟨rest', rfl⟩ := head?_eq_some_iff.1 hr
  split at hfound
  · rename_i hwhole
    cases hfound
    exact ⟨r, rest', rfl, rfl, hwhole⟩
  · cases hfound

theorem nextHeader_none (hnext : nextHeader rest data = none) :
    ∀ r ∈ rest.head?, data.length < r.header.length := by
  intro r hr
  rw [nextHeader, hr, Option.bind_some] at hnext
  split at hnext
  · cases hnext
  · rename_i hwhole
    exact Nat.lt_of_not_le hwhole

theorem bytes_length (r : Request) : r.bytes.length = r.header.length + r.body.length :=
  length_append

theorem data_split (hdata : data <+: stream (r :: rest))
    (hwhole : r.bytes.length ≤ data.length) : ∃ tail, data = r.bytes ++ tail ∧
    tail <+: stream rest := by
  rw [stream, flatMap_cons] at hdata
  obtain ⟨tail, rfl⟩ := prefix_of_prefix_length_le (prefix_append r.bytes _) hdata hwhole
  exact ⟨tail, rfl, (prefix_append_right_inj _).1 hdata⟩

def framesOf (events : List Event) : List (Bytes × Int × Int) :=
  events.filterMap fun
    | .packet p => some (p.palyload, p.headLen, p.size)
    | _ => none

def Request.frame (r : Request) : Bytes × Int × Int :=
  (r.bytes, (r.header.length : Int), (r.bytes.length : Int))

theorem shifted_data (hok : ReadOk client) (hn : n ≤ client.data.length) :
    (client.shifted n).data = client.data.drop n := by
  have hlength := data_length hok
  have hlt := hok.lt
  have hsize := hok.size
  have hcut : ((client.readBuf.drop n).take (client.readDatasize - n).toNat).length =
    (client.readDatasize - n).toNat := by
    rw [length_take, length_drop]
    omega
  rw [ClientInfo.data, ClientInfo.data, drop_take]
  dsimp only [ClientInfo.shifted]
  nth_rewrite 1 [← hcut]
  rw [Int.toNat_natCast, take_overwrite_zero (by omega)]
  congr 1
  omega

section
variable (hplain : ∀ r ∈ rest, Plain r) (hw : Waits rest client)
    (hdata : client.data <+: stream rest) (hsettled : Settled client)
include hplain hw hdata hsettled

theorem header_next : client.header = some (nextHeader rest client.data) := by
  by_cases hpos : 0 < client.hlen
  · obtain ⟨r, hr, hhlen, hclen, -, hwhole⟩ := hw.header.resolve_left (Int.not_le.2 hpos)
    rw [ClientInfo.header, if_pos hpos, nextHeader, hr, Option.bind_some, if_pos hwhole, hhlen,
      hclen]
    rfl
  · obtain ⟨junk, hbuf⟩ := terminated_buf hw.ok
    rw [hsettled.1, ClientInfo.header]
    exact (if_neg hpos).trans (findHeader_next hplain hdata hbuf (data_length hw.ok).symm)

theorem readable_next : Readable client := by
  have hheader := header_next hplain hw hdata hsettled
  refine ⟨_, hheader, fun h hh => ?_⟩
  obtain ⟨r, rest', rfl, rfl, -⟩ := nextHeader_inv hh
  obtain ⟨hr, hrest'⟩ := forall_mem_cons.1 hplain
  have hlength := data_length hw.ok
  refine ⟨fun _ => ?_, fun hwhole => ?_⟩
  · have hsize := hr.size
    have hshort := r.short
    have hhigh := hw.high
    have hlt := hw.ok.lt
    dsimp only
    omega
  · dsimp only at hwhole
    obtain ⟨tail, htail, hrest⟩ := data_split hdata (by rw [bytes_length]; omega)
    obtain ⟨junk, hbuf⟩ := terminated_buf hw.ok
    rw [hsettled.2 _ hheader _ hh hwhole, hbuf, htail, Request.bytes, append_assoc, append_assoc,
      ← append_assoc r.body]
    exact hr.getval_session hrest' hrest

theorem parseHeader_next (h : client.parseHeader (some junk) = some (ok, client₁)) : ok = true ∧
      Waits rest client₁ ∧ client₁.data = client.data ∧ client₁.readDatasize = client.readDatasize ∧
      (client₁.hlen ≤ 0 → ∀ r ∈ rest.head?, client.data.length < r.header.length) := by
  have hheader := header_next hplain hw hdata hsettled
  rcases parseHeader_inv h with ⟨rfl, rfl, hfound⟩ | ⟨hpos, hlen, clen, hfound, hfound'⟩
  · refine ⟨rfl, hw, rfl, rfl, fun hpos => nextHeader_none ?_⟩
    rw [ClientInfo.header, if_neg (Int.not_lt.2 hpos),
      hfound.resolve_left (Int.not_lt.2 hpos)] at hheader
    exact (Option.some.inj hheader).symm
  · rw [ClientInfo.header, if_neg (Int.not_lt.2 hpos), hfound] at hheader
    obtain ⟨r, rest', rfl, hlengths, hwhole⟩ := nextHeader_inv (Option.some.inj hheader).symm
    cases hlengths
    have hr := hplain r mem_cons_self
    have hsize := hr.size
    have hshort := r.short
    have hfour := r.four_le
    obtain ⟨rfl, hok⟩ := hfound'.readOk hw.ok (by omega) (.inr (by omega))
    have hlength := data_length hw.ok
    have hlt := hw.ok.lt
    have hnone : ¬((r.header.length : Int) ≤ 0) := by omega
    cases hfound' with
    | fits hfits =>
      exact ⟨rfl, ⟨hok, hw.low, hw.high, .inr ⟨r, rfl, rfl, rfl, hfits, hwhole⟩⟩, rfl, rfl,
        fun hle => absurd hle hnone⟩
    | @grows junk' size hlarge _ hnew _ =>
      obtain ⟨hlow, hhigh⟩ :=
        aglin_bounds ((r.body.length : Int) + r.header.length + client.readDatasize + 64)
      have hlow' := hw.low
      have hsize' := hw.ok.size
      have hkept : ((client.withHeader r.header.length r.body.length).grown junk' size).data =
        client.data :=
        take_resize (by dsimp only [ClientInfo.withHeader, ClientInfo.grown]; omega)
          (by dsimp only [ClientInfo.withHeader, ClientInfo.grown]; omega) junk' 0
      refine ⟨rfl, ⟨hok, ?_, ?_, .inr ⟨r, rfl, rfl, rfl, ?_, hkept ▸ hwhole⟩⟩, hkept, rfl,
        fun hle => absurd hle hnone⟩
      all_goals
        dsimp only [ClientInfo.grown, ClientInfo.withHeader]
        omega

/-- What a call of the parser does: it delivers the next request when it is complete. -/
theorem parser_next (h : swiotParserPacket client (some junk) = some (client', events)) :
    client'.readDatasize + 1 < client'.readBufsize ∧
    ((∃ r rest', rest = r :: rest' ∧ r.bytes.length ≤ client.data.length ∧
        framesOf events = [r.frame] ∧ Waits rest' client' ∧ client.data = r.bytes ++ client'.data) ∨
      ((∀ r ∈ rest.head?, client.data.length < r.bytes.length) ∧ framesOf events = [] ∧
        Waits rest client' ∧ client'.data = client.data)) := by
  obtain ⟨ok, client₁, hheader, hnext⟩ := parser_inv h
  obtain ⟨rfl, hw₁, hsame, hdatasize, hpart⟩ := parseHeader_next hplain hw hdata hsettled hheader
  obtain ⟨-, hdeliver⟩ | ⟨⟨⟩, -⟩ := hnext
  have hlength := data_length hw₁.ok
  have hlow := hw₁.low
  rw [← hsame] at hdata hpart ⊢
  rcases deliver_inv hdeliver with ⟨hwhole, rfl, rfl⟩
    | ⟨hclen, hwhole, hnonneg, rfl, session, -, rfl⟩
  · have hwait : client'.readDatasize + 1 < client'.readBufsize ∧ ∀ r ∈ rest.head?,
      client'.data.length < r.bytes.length := by
      rcases hw₁.header with hpos | ⟨r, hr, hhlen, hclen, hfits, -⟩
      · have hpart := hpart hpos
        cases rest with
        | nil =>
          rw [prefix_nil.1 hdata] at hlength
          exact ⟨by simp at hlength; omega, fun r hr => by cases hr⟩
        | cons r rest =>
          have hlt := hpart r rfl
          have hshort := r.short
          refine ⟨by omega, fun r' hr' => ?_⟩
          cases hr'
          rw [bytes_length]
          omega
      · have hlt : client'.readDatasize < client'.clen + client'.hlen := by
          by_contra hle
          exact hwhole ⟨by omega, by omega⟩
        refine ⟨by omega, fun r' hr' => ?_⟩
        cases hr.symm.trans hr'
        rw [bytes_length]
        omega
    exact ⟨hwait.1, .inr ⟨hwait.2, rfl, hw₁, rfl⟩⟩
  · obtain ⟨r, hr, hhlen, hclen', hfits, -⟩ := hw₁.header.resolve_left fun hpos =>
      hclen (hw₁.ok.header.resolve_right fun h => by omega).2
    obtain ⟨rest', rfl⟩ := head?_eq_some_iff.1 hr
    have hpacket : client₁.clen + client₁.hlen = (r.bytes.length : Int) := by
      rw [bytes_length, hhlen, hclen']
      omega
    have hfour := r.four_le
    have hlt := hw₁.ok.lt
    have hok := hw₁.ok.shifted hnonneg hwhole
    rw [hpacket] at hwhole hok ⊢
    have hle : r.bytes.length ≤ client₁.data.length := by omega
    obtain ⟨tail, htail, -⟩ := data_split hdata hle
    have hshifted := shifted_data hw₁.ok hle
    rw [htail, drop_left] at hshifted
    refine ⟨?_, .inl ⟨r, rest', rfl, hle, ?_,
      ⟨hok, hlow, hw₁.high, .inl (by decide : (-1 : Int) ≤ 0)⟩, ?_⟩⟩
    · dsimp only [ClientInfo.shifted]
      rw [bytes_length]
      omega
    · have hpalyload : client₁.readBuf.take r.bytes.length = r.bytes := by
        have htake : client₁.data.take r.bytes.length = r.bytes := by
          rw [htail, take_left]
        rw [ClientInfo.data, take_take, Nat.min_eq_left (by omega)] at htake
        exact htake
      change [((client₁.readBuf.take (client₁.clen + client₁.hlen).toNat), client₁.hlen,
        client₁.clen + client₁.hlen)] = [r.frame]
      rw [hpacket, Int.toNat_natCast, hpalyload, hhlen]
      rfl
    · rw [hshifted, htail]

end

def receivedData (events : List Event) : Bytes :=
  events.flatMap fun
    | .received data => data
    | _ => []

/-- Memory for a larger buffer is there, and the bytes behind the data make no difference. -/
def Calm : Option Connection → Action → Prop
  | some c, .parse fresh => fresh ≠ none ∧ Settled c.client
  | _, _ => True

theorem framesOf_append : framesOf (events ++ events') = framesOf events ++ framesOf events' :=
  filterMap_append

theorem receivedData_append : receivedData (events ++ events') = receivedData events ++ receivedData
    events' :=
  flatMap_append

theorem framesOf_writing (h : ∀ e ∈ events, e.OfWriting) : framesOf events = [] := by
  refine filterMap_eq_nil_iff.2 fun e he => ?_
  have hwriting := h e he
  cases e with
  | packet p => exact hwriting.elim
  | received _ | stored _ _ _ _ | queued _ | sent _ | returned _ => rfl

theorem receivedData_writing (h : ∀ e ∈ events, e.OfWriting) : receivedData events = [] := by
  refine flatMap_eq_nil_iff.2 fun e he => ?_
  have hwriting := h e he
  cases e with
  | packet p => rfl
  | received _ => exact hwriting.elim
  | stored _ _ _ _ | queued _ | sent _ | returned _ => rfl

theorem SameRead.waits (h : SameRead client client') (hw : Waits rest client) : Waits rest client' ∧
    client'.data = client.data := by
  have hsame : client'.data = client.data := by
    rw [ClientInfo.data, ClientInfo.data, h.buf, h.datasize]
  refine ⟨⟨h.ok hw.ok, h.bufsize ▸ hw.low, h.bufsize ▸ hw.high, ?_⟩, hsame⟩
  rw [h.hlen, h.clen, h.bufsize, hsame]
  exact hw.header

theorem extended_data (hok : ReadOk client)
    (hroom : (data.length : Int) ≤ client.readBufsize - client.readDatasize - 1) (now : Int) :
    (client.extended data now).data = client.data ++ data := by
  obtain ⟨hnonneg, hlt, hsize, -⟩ := hok
  have hend : (client.readDatasize + data.length).toNat = client.readDatasize.toNat +
    data.length := by omega
  dsimp only [ClientInfo.data, ClientInfo.extended]
  rw [hend, take_overwrite_of_le (Nat.le_refl _) (by rw [overwrite_length]; omega),
    take_overwrite (by omega)]

theorem recv_waits (hw : Waits rest client)
    (h : swiotClientRecv client receiving now = (true, client', events)) :
    Waits rest client' ∧ client'.data = client.data ++ receivedData events ∧
    framesOf events = [] := by
  rcases recv_inv h with ⟨rfl, rfl⟩ | ⟨data, -, hroom, rfl, rfl⟩
  · exact ⟨hw, (append_nil _).symm, rfl⟩
  · have hdata := extended_data hw.ok hroom now
    refine ⟨⟨hw.ok.extended hroom now, hw.low, hw.high, ?_⟩, ?_, rfl⟩
    · refine hw.header.imp_right ?_
      rintro ⟨r, hr, hhlen, hclen, hfits, hwhole⟩
      refine ⟨r, hr, hhlen, hclen, hfits, ?_⟩
      rw [hdata, length_append]
      omega
    · rw [hdata]
      simp [receivedData]

theorem parser_received (h : swiotParserPacket client fresh = some (client', events)) :
    receivedData events = [] := by
  obtain ⟨ok, client₁, -, ⟨-, hdeliver⟩ | ⟨-, -, rfl⟩⟩ := parser_inv h
  · rcases deliver_inv hdeliver with ⟨-, -, rfl⟩ | ⟨-, -, -, -, session, -, rfl⟩ <;> rfl
  · rfl

theorem settled_of_nul (h : client.readBuf[client.readDatasize.toNat]? = some 0) :
    Settled client := by
  have hsame : client.terminated = client := by rw [ClientInfo.terminated, set_eq_self h]
  rw [Settled, hsame]
  exact ⟨rfl, fun _ _ _ _ _ => rfl⟩

/-- A tick that receives data stores a NUL behind them. -/
theorem exchange_settled {c c' : Connection} (hwrite : WriteOk c.client) (hread : ReadOk c.client)
    (hstep : c.exchange now sending receiving = some (events, some c'))
    (hdata : receivedData events ≠ []) : Settled c'.client := by
  obtain ⟨-, client₁, events₁, hsends, ⟨hnone, -⟩ | ⟨client₂, events₂, hrecv, hnext, rfl, -⟩⟩ :=
    exchange_inv hwrite hstep
  · cases hnone
  cases hnext
  obtain ⟨hnonneg, -, hsize, -⟩ := hsends.read.ok hread
  rcases recv_inv hrecv with ⟨rfl, rfl⟩ | ⟨data, -, hroom, rfl, rfl⟩
  · rw [receivedData_append, receivedData_writing hsends.writing] at hdata
    exact absurd rfl hdata
  · have hend : (client₁.readDatasize + data.length).toNat < client₁.readBuf.length := by omega
    refine settled_of_nul ?_
    dsimp only [ClientInfo.extended]
    rw [overwrite_eq (by rw [overwrite_length]; exact hend), append_assoc, getElem?_append_right,
      length_take_of_le, Nat.sub_self]
    · rfl
    · rw [overwrite_length]
      exact hend.le
    · rw [length_take]
      exact Nat.min_le_left ..

/-- After a run the first `k` requests have been delivered, and what else was received is in the
buffer. -/
structure Follows (requests : List Request) (events : List Event) (k : Nat) (c : Connection) :
    Prop where
  write : WriteOk c.client
  le : k ≤ requests.length
  frames : framesOf events = (requests.take k).map Request.frame
  received : receivedData events = stream (requests.take k) ++ c.client.data
  waits : Waits (requests.drop k) c.client
  room : c.parsing = false → c.client.readDatasize + 1 < c.client.readBufsize

def dueFrames (requests : List Request) (k : Nat) (received : Bytes) : List (Bytes × Int × Int) :=
  if (stream (requests.take (k + 1))).length ≤ received.length then
    (requests[k]?.map Request.frame).toList else []

theorem stream_append : stream (a ++ b) = stream a ++ stream b := flatMap_append

theorem Follows.data_prefix (h : Follows requests events k c)
    (hstream : receivedData events <+: stream requests) :
    c.client.data <+: stream (requests.drop k) := by
  rw [h.received, ← take_append_drop k requests, stream_append, take_append_drop] at hstream
  exact (prefix_append_right_inj _).1 hstream

theorem Follows.writing (h : Follows requests events k c) (hread : SameRead c.client c'.client)
    (hwrite : WriteOk c'.client)
    (hparsing : c'.parsing = c.parsing) (hevents : ∀ e ∈ events', e.OfWriting) :
    Follows requests (events ++ events') k c' := by
  obtain ⟨hwaits, hdata⟩ := hread.waits h.waits
  refine ⟨hwrite, h.le, ?_, ?_, hwaits, ?_⟩
  · rw [framesOf_append, framesOf_writing hevents, append_nil]
    exact h.frames
  · rw [receivedData_append, receivedData_writing hevents, append_nil, hdata]
    exact h.received
  · rw [hparsing, hread.datasize, hread.bufsize]
    exact h.room

theorem Follows.exchange {next : Option Connection} (h : Follows requests events k c)
    (hstep : c.exchange now sending receiving = some (events', next)) :
    framesOf events' = [] ∧ ∀ c', next = some c' → Follows requests (events ++ events') k c' := by
  obtain ⟨-, client₁, events₁, hsends, ⟨rfl, rfl, -⟩ | ⟨client₂, events₂, hrecv, rfl, rfl, -⟩⟩ :=
    exchange_inv h.write hstep
  · exact ⟨framesOf_writing hsends.writing, fun c' hc' => by cases hc'⟩
  · obtain ⟨hwaits₁, hdata₁⟩ := hsends.read.waits h.waits
    obtain ⟨hwaits, hdata, hframes⟩ := recv_waits hwaits₁ hrecv
    have hnone : framesOf (events₁ ++ events₂) = [] := by
      rw [framesOf_append, framesOf_writing hsends.writing, hframes]
      rfl
    refine ⟨hnone, fun c' hc' => ?_⟩
    cases hc'
    have hsame := (recv_same client₁ receiving now).1
    rw [hrecv] at hsame
    refine ⟨hsame.ok hsends.ok, h.le, ?_, ?_, hwaits,
      fun hparsing => absurd hparsing Bool.noConfusion⟩
    · rw [framesOf_append, hnone, append_nil]
      exact h.frames
    · rw [receivedData_append, receivedData_append, receivedData_writing hsends.writing, nil_append,
        h.received, hdata, hdata₁, append_assoc]

theorem Follows.parse (hplain : ∀ r ∈ requests, Plain r) (h : Follows requests events k c)
    (hstream : receivedData events <+: stream requests) (hparsing : c.parsing = true)
    (hsettled : Settled c.client) (junk : Bytes) :
    ∃ events' c', c.parse (some junk) = some (events', some c') ∧
    framesOf events' = dueFrames requests k (receivedData events) ∧
      ∃ k', Follows requests (events ++ events') k' c' := by
  have hdata := h.data_prefix hstream
  have hrest : ∀ r ∈ requests.drop k, Plain r := fun r hr => hplain r (mem_of_mem_drop hr)
  obtain ⟨client', events', hparser, -, -⟩ :=
    parser_bounds h.waits.ok (readable_next hrest h.waits hdata hsettled) junk
  have hwrite := (parser_same hparser).1.ok h.write
  have hnone := parser_received hparser
  obtain ⟨hroom, hnext⟩ := parser_next hrest h.waits hdata hsettled hparser
  refine ⟨events', ⟨client', false⟩, ?_, ?_⟩
  · rw [Connection.parse, if_pos hparsing, hparser]
    rfl
  rcases hnext with ⟨r, rest', hdrop, hwhole, hframes, hwaits, hsplit⟩
    | ⟨hpart, hframes, hwaits, hsame⟩
  · have hget : requests[k]? = some r := by
      rw [← head?_drop, hdrop]
      rfl
    have htake : requests.take (k + 1) = requests.take k ++ [r] := by
      rw [take_add_one, hget]
      rfl
    have hdrop' : requests.drop (k + 1) = rest' := by
      rw [← drop_drop, hdrop]
      rfl
    have hstream' : stream (requests.take (k + 1)) = stream (requests.take k) ++ r.bytes := by
      rw [htake, stream_append]
      exact congrArg _ (append_nil r.bytes)
    constructor
    · rw [hframes, dueFrames, hstream', h.received, if_pos, hget]
      · rfl
      · rw [length_append, length_append]
        omega
    · refine ⟨k + 1, hwrite, (List.getElem?_eq_some_iff.1 hget).1, ?_, ?_, hdrop' ▸ hwaits,
        fun _ => hroom⟩
      · rw [framesOf_append, h.frames, hframes, htake, map_append]
        rfl
      · rw [receivedData_append, hnone, append_nil, h.received, hstream', hsplit, append_assoc]
  · constructor
    · rw [hframes, dueFrames]
      split
      · rename_i hdue
        cases hget : requests[k]? with
        | none => rfl
        | some r =>
          have hlt := hpart r (by rw [head?_drop, hget]; rfl)
          rw [take_add_one, hget, stream_append, h.received, length_append, length_append] at hdue
          have hone : (stream (some r).toList).length = r.bytes.length :=
            congrArg length (append_nil r.bytes)
          omega
      · rfl
    · refine ⟨k, hwrite, h.le, ?_, ?_, hwaits, fun _ => hroom⟩
      · rw [framesOf_append, hframes, append_nil]
        exact h.frames
      · rw [receivedData_append, hnone, append_nil, h.received, hsame]

theorem follows_active : Follows requests [] 0 (.active skt readJunk writeJunk) := by
  have hbounded := active_bounded skt readJunk writeJunk
  refine ⟨hbounded.write, Nat.zero_le _, rfl, ?_,
    ⟨hbounded.read, Int.le_refl 512, (by decide : (512 : Int) ≤ 2^30 + 1100),
    .inl (by decide : (-1 : Int) ≤ 0)⟩, fun _ => (by decide : (0 : Int) + 1 < 512)⟩
  rfl

theorem Follows.step {next : Option Connection} (hplain : ∀ r ∈ requests, Plain r)
    (h : Follows requests events k c)
    (hstream : receivedData events <+: stream requests) (hcalm : Calm (some c) a)
    (hstep : step (some c) a = some (events', next)) :
    (next = none → framesOf (events ++ events') = (requests.take k).map Request.frame) ∧
      ∀ c', next = some c' → ∃ k', Follows requests (events ++ events') k' c' := by
  cases a with
  | exchange now sending receiving =>
    obtain ⟨hnone, hnext⟩ := h.exchange hstep
    refine ⟨fun _ => ?_, fun c' hc' => ⟨k, hnext c' hc'⟩⟩
    rw [framesOf_append, hnone, append_nil]
    exact h.frames
  | parse fresh =>
    obtain ⟨hparsing, -⟩ := parse_inv hstep
    obtain ⟨junk, rfl⟩ := Option.ne_none_iff_exists'.1 hcalm.1
    obtain ⟨events₁, c₁, hparse, -, hfollows⟩ := h.parse hplain hstream hparsing hcalm.2 junk
    cases hstep.symm.trans hparse
    exact ⟨fun h => (by cases h), fun c' hc' => Option.some.inj hc' ▸ hfollows⟩
  | respond r =>
    obtain ⟨client', data, rfl, hsends, -⟩ := respond_inv h.write hstep
    refine ⟨fun h => (by cases h), fun c' hc' => ⟨k, ?_⟩⟩
    cases hc'
    exact h.writing hsends.read hsends.ok rfl hsends.writing

theorem run_follows (hplain : ∀ r ∈ requests, Plain r)
    (hrun : Run HttpServer.step Calm (some (.active skt readJunk writeJunk)) history s) :
    receivedData (eventsOf history) <+: stream requests →
    (s = none ∧ ∃ k ≤ requests.length, framesOf (eventsOf history) =
    (requests.take k).map Request.frame) ∨
      ∃ c, s = some c ∧ ∃ k, Follows requests (eventsOf history) k c := by
  induction hrun with
  | start =>
    intro _
    exact .inr ⟨_, rfl, 0, follows_active⟩
  | @next history s a events s' _ hcalm hstep hinv =>
    intro hstream
    rw [eventsOf_snoc] at hstream ⊢
    rw [receivedData_append] at hstream
    have hbefore := (prefix_append _ _).trans hstream
    rcases hinv hbefore with ⟨rfl, -⟩ | ⟨c, rfl, k, hfollows⟩
    · cases hstep
    · obtain ⟨hclosed, hnext⟩ := hfollows.step hplain hbefore hcalm hstep
      cases s' with
      | none => exact .inl ⟨rfl, k, hfollows.le, hclosed rfl⟩
      | some c' => exact .inr ⟨c', rfl, hnext c' rfl⟩

theorem all_delivered (hk : k ≤ requests.length)
    (hdue : dueFrames requests k (stream requests) = []) : k = requests.length := by
  have hle : (stream (requests.take (k + 1))).length ≤ (stream requests).length := by
    rw [← take_append_drop (k + 1) requests, stream_append, take_append_drop, length_append]
    exact Nat.le_add_right _ _
  rw [dueFrames, if_pos hle] at hdue
  cases hget : requests[k]? with
  | none => exact Nat.le_antisymm hk (getElem?_eq_none_iff.1 hget)
  | some r =>
    rw [hget] at hdue
    cases hdue

/-- Requests on one connection, split into receives in any way and with any responses between them:
the callback gets a first part of them, each once and in order. A receive finds room, and each call
of the parser is defined and delivers the next request exactly when it is complete; when all were
received and nothing is delivered, all have been. -/
theorem requests_framed {requests : List Request} (hplain : ∀ r ∈ requests, Plain r) {skt : Nat}
    {readJunk writeJunk : Bytes} {history : List (Action × List Event)} {s : Option Connection}
    (hrun : Run step Calm (some (.active skt readJunk writeJunk)) history s)
    (hstream : receivedData (eventsOf history) <+: stream requests) :
    ∃ k ≤ requests.length, framesOf (eventsOf history) = (requests.take k).map Request.frame ∧
      ∀ c, s = some c → (c.parsing = false → c.client.readDatasize + 1 < c.client.readBufsize) ∧
      (c.parsing = true → Settled c.client → ∀ junk, ∃ events c',
      step s (.parse (some junk)) = some (events, some c') ∧
        framesOf events = dueFrames requests k (receivedData (eventsOf history)) ∧
        (receivedData (eventsOf history) = stream requests → framesOf events = [] →
        k = requests.length)) := by
  rcases run_follows hplain hrun hstream with ⟨rfl, k, hk, hframes⟩ | ⟨c, rfl, k, hfollows⟩
  · exact ⟨k, hk, hframes, fun c hc => by cases hc⟩
  · refine ⟨k, hfollows.le, hfollows.frames, fun c' hc' => ?_⟩
    cases hc'
    refine ⟨hfollows.room, fun hparsing hsettled junk => ?_⟩
    obtain ⟨events, c', hparse, hdue, -⟩ := hfollows.parse hplain hstream hparsing hsettled junk
    refine ⟨events, c', hparse, hdue, fun hall hnone => ?_⟩
    rw [hall] at hdue
    exact all_delivered hfollows.le (hdue.symm.trans hnone)

instance (s : Option Connection) (a : Action) : Decidable (Calm s a) := by
  rcases s with _ | _ <;> rcases a with _ | _ <;> dsimp only [Calm] <;> infer_instance

def postHeader : Bytes := text "POST /a HTTP/1.1\r\nContent-Length: 3\r\n\r\n"

def getHeader : Bytes := text "GET / HTTP/1.1\r\n\r\n"

theorem postHeader_ended :
    0 ∉ postHeader ∧ postHeader.length ≤ 504 ∧
    strstr crlfCrlf postHeader = some (postHeader.length - 4) := by
  decide +kernel

theorem getHeader_ended :
    0 ∉ getHeader ∧ getHeader.length ≤ 504 ∧ strstr crlfCrlf getHeader =
    some (getHeader.length - 4) := by
  decide +kernel

def post : Request := ⟨postHeader, text "abc", postHeader_ended.1, postHeader_ended.2.1,
    postHeader_ended.2.2⟩

def get : Request := ⟨getHeader, [], getHeader_ended.1, getHeader_ended.2.1, getHeader_ended.2.2⟩

theorem post_plain : Plain post := by
  constructor
  all_goals decide +kernel

theorem get_plain : Plain get := by
  constructor
  all_goals decide +kernel

theorem requests_framed_split : ∃ history s, Run step Calm (some (.active 5 [] [])) history s ∧
    receivedData (eventsOf history) = stream [post, get] ∧
    framesOf (eventsOf history) = [post.frame, get.frame] ∧
    ∃ k ≤ 2, framesOf (eventsOf history) = ([post, get].take k).map Request.frame := by
  refine exists_run [.exchange 1 .again (.bytes ((stream [post, get]).take 45)), .parse (some []),
    .exchange 2 .again (.bytes ((stream [post, get]).drop 45)), .parse (some [])] (fun history _ =>
      receivedData (eventsOf history) = stream [post, get] ∧
        framesOf (eventsOf history) = [post.frame, get.frame])
    (by decide +kernel) ?_
  rintro history s hrun ⟨hreceived, hframes⟩
  have hplain : ∀ r ∈ [post, get], Plain r := by simp [post_plain, get_plain]
  obtain ⟨k, hk, htake, -⟩ := requests_framed hplain hrun (hreceived ▸ prefix_rfl)
  exact ⟨hreceived, hframes, k, hk, htake⟩

/-- Both requests come with one receive. Behind the second one, which has moved to the front, the
parser reads the length of the first one, and waits for three bytes more. -/
theorem old_length_is_read : ∃ history c, Run step (fun _ a => a ≠ .parse none)
    (some (.active 5 [] [])) history (some c) ∧
    Plain post ∧ Plain get ∧ receivedData (eventsOf history) = stream [post, get] ∧
    framesOf (eventsOf history) = [post.frame] ∧ c.client.hlen = 18 ∧ c.client.clen = 3 ∧
    c.client.readDatasize = 18 := by
  obtain ⟨history, s, he, hreceived, hframes, c, rfl, hwaits⟩ :=
    exists_of_exec step (fun _ a => a ≠ .parse none) (some (.active 5 [] []))
    [.exchange 1 .again (.bytes (stream [post, get])), .parse (some []), .exchange 2 .again .again,
      .parse (some [])]
    (fun history s => receivedData (eventsOf history) = stream [post, get] ∧
      framesOf (eventsOf history) = [post.frame] ∧
      ∃ c ∈ s, c.client.hlen = 18 ∧ c.client.clen = 3 ∧ c.client.readDatasize = 18)
        (by decide +kernel)
  exact ⟨history, c, .of_exec he, post_plain, get_plain, hreceived, hframes, hwaits⟩

end SwApi.HttpServer
