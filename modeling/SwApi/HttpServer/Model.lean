import SwApi.Library.Block
import SwApi.Library.Transition
import SwApi.Url.Model

/-! `httpserver.c`: the connections of the embedded server with their buffers, and the list that
holds them. A step without a result is undefined behaviour; the stores into the buffers are
reported, also those outside of them. -/
namespace SwApi.HttpServer
open Library
open Url (strstr)

def exactInt (x : Int) : Option Int := if -2^31 ≤ x ∧ x < 2^31 then some x else none

def isBlank (c : UInt8) : Bool := c = 32 || c = 44 || c = 9 || c = 13 || c = 10

def endsLine (c : UInt8) : Bool := c = 13 || c = 10 || c = 0

def endsName (c : UInt8) : Bool := c = 58 || c = 61 || c = 9

def isFiller (c : UInt8) : Bool := isBlank c || c = 58 || c = 61

def lineOf (s : Bytes) : Bytes := s.takeWhile fun c => !endsLine c

/-- What `SWIOT_Common_Getval` copies of a field: the part of its value on the line, and at most
`valuelen - 1` bytes. When the value does not begin on the line the number of bytes is negative,
which `strncpy` takes for a large one. -/
def fieldValue (valuelen : Nat) (s : Bytes) : Option (Option Bytes) :=
  let line := lineOf s
  let value := (s.drop ((line.takeWhile fun c => !endsName c).length + 1)).dropWhile isFiller
  let offset := s.length - value.length
  if offset ≤ line.length then some (some (value.take (min (valuelen - 1) (line.length - offset))))
  else none

/-- From `p` on, where `left` bytes of the header are left. Every round takes at least one byte. -/
def getvalLoop (name : Bytes) (valuelen : Nat) : Nat → Bytes → Nat → Option (Option Bytes)
  | 0, _, _ => none
  | fuel+1, p, left =>
      if left = 0 then some none
      else
        let s := p.dropWhile isBlank
        match s.drop (lineOf s).length with
        | [] => none
        | _ :: next =>
            if name <+: s ∧ (lineOf s).any endsName then fieldValue valuelen s
            else getvalLoop name valuelen fuel next (left - (p.length - next.length))

/-- `some none` is the result NULL. -/
def swiotCommonGetval (buf : Bytes) (buflen : Nat) (name : Bytes) (valuelen : Nat) :
    Option (Option Bytes) :=
  getvalLoop name valuelen (buflen + 1) buf buflen

def intText (n : Int) : Bytes := if n < 0 then 45 :: decimal n.natAbs else decimal n.natAbs

def text (s : String) : Bytes := s.toByteArray.data.toList

/-- `url_get_httpresp`, without the end of `snprintf`: the text is shorter than its buffer. -/
def urlGetHttpresp (httpstatus sessionid contentLength : Int) : Bytes :=
  let session :=
    text "\r\nSessionId: " ++ intText sessionid ++ text "\r\nAccess-Control-Allow-Origin: *\r\n"
  let length := text "Content-Length: " ++ intText contentLength ++ text "\r\n"
  let type := text "Content-Type: text/json;charset=UTF-8\r\n"
  if httpstatus = 200 then text "HTTP/1.1 200 OK" ++ session ++ length ++ type ++ text "\r\n"
  else if httpstatus = 400 then
    text "HTTP/1.1 400 Bad Request" ++ session ++ type ++ length ++ text "\r\n"
  else if httpstatus = 500 then
    text "HTTP/1.1 500 Internal Server Error" ++ session ++ type ++ length ++ text "\r\n"
  else if httpstatus = 401 then
    text "HTTP/1.1 401 Unauthorized" ++ session ++ type ++ length ++ text "\r\n"
  else if httpstatus = 404 then
    text "HTTP/1.1 404 Not Found" ++ session ++ type ++ length ++ text "\r\n"
  else []

/-- `client_info_t`. A buffer is the block it points to, and empty when the pointer is NULL. -/
structure ClientInfo where
  skt : Nat
  readBuf : Bytes
  readBufsize : Int
  readDatasize : Int
  writeBuf : Bytes
  writeBufsize : Int
  writeDatasize : Int
  hlen : Int
  clen : Int
  dataTick : Int
  deadTick : Int
  dead : Bool
deriving DecidableEq

/-- The arguments of the packet callback; the handle belongs to the list. -/
structure Packet where
  method : Bytes
  uri : Bytes
  palyload : Bytes
  headLen : Int
  size : Int
  sessionId : Int
deriving DecidableEq

inductive Buffer where
  | read
  | write
deriving DecidableEq

/-- What happens on a connection: `count` bytes are stored into a buffer of `size` bytes; bytes are
received, passed to `swiot_client_send`, or sent; the callback gets a packet; `swiot_client_send` or
a response returns. -/
inductive Event where
  | stored (buffer : Buffer) (start count : Int) (size : Nat)
  | received (data : Bytes)
  | queued (data : Bytes)
  | sent (data : Bytes)
  | packet (p : Packet)
  | returned (ret : Int)
deriving DecidableEq

/-- What a socket does with a send: it takes at most `n` bytes, or refuses, or fails. -/
inductive Sending where
  | room (n : Nat)
  | again
  | failed
deriving DecidableEq

/-- What a socket has for a receive; nothing is the end of the connection. -/
inductive Receiving where
  | bytes (data : Bytes)
  | again
  | failed
deriving DecidableEq

/-- The new blocks hold what was there before. -/
def swiotActiveSkt (skt : Nat) (readJunk writeJunk : Bytes) : ClientInfo where
  skt := skt
  readBuf := resize [] readJunk 0 512
  readBufsize := 512
  readDatasize := 0
  writeBuf := resize [] writeJunk 0 512
  writeBufsize := 512
  writeDatasize := 0
  hlen := -1
  clen := -1
  dataTick := 0
  deadTick := 0
  dead := false

/-- The answer is whether the result is 0. -/
def swiotCheckClient (client : ClientInfo) (now : Int) : Bool × ClientInfo :=
  let client := if client.dataTick = 0 ∨ now < client.dataTick then { client with dataTick := now }
    else client
  let client :=
    if client.dead = false ∧ client.dataTick + 60000 < now then
      { client with deadTick := now, dead := true } else client
  (!(client.dead && decide (client.deadTick + 10000 < now)), client)

/-- The part of `swiot_client_send` that takes data; NULL is no data. -/
def ClientInfo.enqueue (client : ClientInfo) (data : Bytes) : Option (ClientInfo × List Event) :=
  if data = [] then some (client, [])
  else
    let restSize := client.writeBufsize - client.writeDatasize
    let cpSize := if restSize > data.length then (data.length : Int) else restSize
    let datasize := client.writeDatasize + cpSize
    if cpSize < 0 then none
    else
      let writeBuf := overwrite client.writeBuf client.writeDatasize.toNat (data.take cpSize.toNat)
      some ({ client with
          writeBuf := overwrite writeBuf datasize.toNat [0], writeDatasize := datasize },
        [.queued data, .stored .write client.writeDatasize cpSize client.writeBuf.length,
          .stored .write datasize 1 client.writeBuf.length])

/-- The part of `swiot_client_send` that sends, with its result: -1 also when the socket refuses. -/
def ClientInfo.flush (client : ClientInfo) (sending : Sending) (now : Int) :
    Int × ClientInfo × List Event :=
  if 0 < client.writeDatasize then
    match sending with
    | .room n =>
        let ret := min n client.writeDatasize.toNat
        let datasize := client.writeDatasize - ret
        if 0 < ret then
          (ret, { client with
            writeBuf := overwrite client.writeBuf 0 ((client.writeBuf.drop ret).take datasize.toNat)
            writeDatasize := datasize
            dataTick := now },
            [.sent (client.writeBuf.take ret), .stored .write 0 datasize client.writeBuf.length])
        else (0, client, [])
    | .again => (-1, client, [])
    | .failed => (-1, client, [])
  else (0, client, [])

def swiotClientSend (client : ClientInfo) (data : Bytes) (sending : Sending) (now : Int) :
    Option (Int × ClientInfo × List Event) := do
  let (client, queued) ← client.enqueue data
  let (ret, client, sent) := client.flush sending now
  some (ret, client, queued ++ (sent ++ [.returned ret]))

/-- `swiot_client_recv`, whether it returns 0. The socket gives as much as it has and fits; when
nothing fits the receive returns 0, as at the end of the connection. -/
def swiotClientRecv (client : ClientInfo) (receiving : Receiving) (now : Int) :
    Bool × ClientInfo × List Event :=
  match receiving with
  | .bytes data =>
      let data := data.take (client.readBufsize - client.readDatasize - 1).toNat
      let datasize := client.readDatasize + data.length
      if data = [] then (false, client, [])
      else
        let readBuf := overwrite client.readBuf client.readDatasize.toNat data
        (true, { client with
          readBuf := overwrite readBuf datasize.toNat [0]
          readDatasize := datasize
          dataTick := now },
          [.received data, .stored .read client.readDatasize data.length client.readBuf.length,
            .stored .read datasize 1 client.readBuf.length])
  | .again => (true, client, [])
  | .failed => (false, client, [])

def contentLength : Bytes := text "Content-Length"

def sessionId : Bytes := text "SessionId"

def aglin (x : Int) : Int := x / 4 * 4 + 4

/-- The search of `swiot_parser_packet` for the end of a header: `hlen` and `clen`. Without a NUL
`strstr` runs out of the block. -/
def ClientInfo.findHeader (client : ClientInfo) : Option (Option (Nat × Int)) :=
  if 0 ∉ client.readBuf then none
  else
    match strstr crlfCrlf (client.readBuf.takeWhile (· != 0)) with
    | none => some none
    | some p =>
        if p < client.readDatasize then do
          let value ← swiotCommonGetval client.readBuf (p + 4) contentLength 64
          some (some (p + 4, value.elim 0 atoi))
        else some none

/-- The first part of `swiot_parser_packet`; `none` in place of new memory is an allocation that
fails, after which the function returns. -/
def ClientInfo.parseHeader (client : ClientInfo) (fresh : Option Bytes) :
    Option (Bool × ClientInfo) :=
  if 0 < client.hlen then some (true, client)
  else do
    match ← client.findHeader with
    | none => some (true, client)
    | some (hlen, clen) =>
        let client := { client with hlen := hlen, clen := clen }
        let total ← exactInt (clen + hlen)
        if client.readBufsize ≤ total then do
          let size ← exactInt (aglin (total + client.readDatasize + 64))
          match fresh with
          | none => some (false, { client with readBuf := [] })
          | some junk =>
            some (true, { client with
              readBuf := resize client.readBuf junk 0 size.toNat, readBufsize := size })
        else some (true, client)

/-- `swiot_get_path` with a method of 8 and a path of 256 bytes. -/
def swiotGetPath (head : Bytes) (headSize : Nat) : Bytes × Bytes :=
  let word (p : Bytes) := (p.dropWhile (· == 32)).takeWhile fun c =>
    !(c == 32 || c == 13 || c == 10)
  let method := word (head.take headSize)
  let rest := ((head.take headSize).dropWhile (· == 32)).drop method.length
  (method.take 8, (word rest).take 256)

/-- The second part of `swiot_parser_packet`. A packet of negative size is moved from before the
block. -/
def ClientInfo.deliver (client : ClientInfo) : Option (ClientInfo × List Event) :=
  let packetSize := client.clen + client.hlen
  if client.clen ≠ -1 ∧ packetSize ≤ client.readDatasize then do
    let session ← swiotCommonGetval client.readBuf client.hlen.toNat sessionId 64
    let (method, uri) := swiotGetPath client.readBuf client.hlen.toNat
    let datasize := client.readDatasize - packetSize
    if packetSize < 0 then none
    else
      some ({ client with
        readBuf := overwrite client.readBuf 0
          ((client.readBuf.drop packetSize.toNat).take datasize.toNat)
        readDatasize := datasize
        hlen := -1
        clen := -1 },
        [.packet ⟨method, uri, client.readBuf.take packetSize.toNat, client.hlen, packetSize,
          session.elim 0 atoi⟩, .stored .read 0 datasize client.readBuf.length])
  else some (client, [])

def swiotParserPacket (client : ClientInfo) (fresh : Option Bytes) :
    Option (ClientInfo × List Event) := do
  let (ok, client) ← client.parseHeader fresh
  if ok then client.deliver else some (client, [])

structure Reply where
  sessionId : Int
  code : Int
  data : Bytes
  now : Int
  head : Sending
  rest : Sending
deriving DecidableEq

def swiotHttpServerResponse (client : ClientInfo) (r : Reply) :
    Option (Int × ClientInfo × List Event) :=
  let head := urlGetHttpresp r.code r.sessionId r.data.length
  if head = [] then some (-1, client, [])
  else do
    let (ret, client, events) ← swiotClientSend client head r.head r.now
    let (ret', client, events') ← swiotClientSend client r.data r.rest r.now
    some (ret + ret', client, events ++ events')

/-- A connection, and whether `swiot_handle` has still to parse what it received. -/
structure Connection where
  client : ClientInfo
  parsing : Bool
deriving DecidableEq

inductive Action where
  | exchange (now : Int) (sending : Sending) (receiving : Receiving)
  | parse (fresh : Option Bytes)
  | respond (r : Reply)
deriving DecidableEq

/-- The round of `swiot_handle` on a connection up to the end of its section, which sends and
receives. Without a connection it has been removed. -/
def Connection.exchange (c : Connection) (now : Int) (sending : Sending) (receiving : Receiving) :
    Option (List Event × Option Connection) :=
  let (alive, client) := swiotCheckClient c.client now
  if c.parsing then none
  else if alive = false then some ([], none)
  else do
    let (ret, client, events) ← swiotClientSend client [] sending now
    if ret = -1 then some (events, none)
    else
      let (ok, client, events') := swiotClientRecv client receiving now
      some (events ++ events', if ok then some ⟨client, true⟩ else none)

def Connection.parse (c : Connection) (fresh : Option Bytes) :
    Option (List Event × Option Connection) :=
  if c.parsing then do
    let (client, events) ← swiotParserPacket c.client fresh
    some (events, some ⟨client, false⟩)
  else none

def Connection.respond (c : Connection) (r : Reply) : Option (List Event × Option Connection) := do
  let (ret, client, events) ← swiotHttpServerResponse c.client r
  some (events ++ [.returned ret], some { c with client := client })

def step : Option Connection → Action → Option (List Event × Option Connection)
  | none, _ => none
  | some c, .exchange now sending receiving => c.exchange now sending receiving
  | some c, .parse fresh => c.parse fresh
  | some c, .respond r => c.respond r

/-- The list in the block number `block` with room for `sktListSize` connections. `swiot_handle`
stands at the connection `cursor` when it runs. `behind` are the records that the removals have left
behind the last connection; the write buffer of such a copy is that of its connection, and `none`
stands for one whose buffer is freed. -/
structure Server where
  clients : List Connection
  sktListSize : Nat
  block : Nat
  cursor : Option Nat
  behind : List (Option ClientInfo)
deriving DecidableEq

def Server.init : Server := ⟨[], 2, 0, none, []⟩

structure Handle where
  block : Nat
  index : Nat
deriving DecidableEq

inductive Call where
  | accept (skt : Nat) (readJunk writeJunk : Bytes) (moved : Bool)
  | enter
  | exchange (now : Int) (sending : Sending) (receiving : Receiving)
  | parse (fresh : Option Bytes)
  | leave
  | respond (handle : Handle) (r : Reply)
deriving DecidableEq

inductive Outcome where
  | accepted (moved : Bool)
  | entered
  | exchanged (skt : Nat) (events : List Event)
  | removed (index skt : Nat) (events : List Event)
  | parsed (handle : Handle) (skt : Nat) (events : List Event)
  | left
  | answered (skt : Nat) (events : List Event)
  | refused
deriving DecidableEq

/-- `swiot_accept` with a new descriptor; a full list grows by two, and may move. -/
def Server.accept (s : Server) (skt : Nat) (readJunk writeJunk : Bytes) (moved : Bool) :
    Option (Outcome × Server) :=
  let clients := s.clients ++ [⟨swiotActiveSkt skt readJunk writeJunk, false⟩]
  if s.cursor ≠ none ∨ ∃ c ∈ s.clients, c.client.skt = skt then none
  else if s.clients.length < s.sktListSize then
    some (.accepted false, { s with clients := clients, behind := s.behind.tail })
  else some (.accepted moved, { s with
    clients := clients
    sktListSize := s.sktListSize + 2
    block := if moved then s.block + 1 else s.block
    behind := s.behind.tail })

/-- `swiot_enable_skt` with `swiot_list_remove`: the record of the last connection stays where it
was. -/
def Server.remove (s : Server) (i skt : Nat) : Server :=
  { s with
    clients := s.clients.eraseIdx i
    behind := (s.clients.getLast?.map Connection.client :: s.behind).map
      (Option.filter fun copy => copy.skt != skt) }

/-- The first part of a round of `swiot_handle`. A removed connection leaves its place to the next
one, which the round then passes over. -/
def Server.exchange (s : Server) (now : Int) (sending : Sending) (receiving : Receiving) :
    Option (Outcome × Server) := do
  let i ← s.cursor
  let c ← s.clients[i]?
  match ← c.exchange now sending receiving with
  | (events, some c') => some (.exchanged c.client.skt events,
    { s with clients := s.clients.set i c' })
  | (events, none) =>
      some (.removed i c.client.skt events, { s.remove i c.client.skt with cursor := some (i + 1) })

def Server.parse (s : Server) (fresh : Option Bytes) : Option (Outcome × Server) := do
  let i ← s.cursor
  let c ← s.clients[i]?
  match ← c.parse fresh with
  | (events, some c') =>
      some (.parsed ⟨s.block, i⟩ c.client.skt events,
        { s with clients := s.clients.set i c', cursor := some (i + 1) })
  | (_, none) => none

/-- A response through the `k`-th record behind the last connection: the buffer is that of the
connection, the count of the bytes in it is that of the copy. -/
def Server.respondCopy (s : Server) (k : Nat) (r : Reply) : Option (Outcome × Server) := do
  let copy ← s.behind[k]?.join
  let i := s.clients.findIdx fun c => c.client.skt == copy.skt
  let c ← s.clients[i]?
  let (ret, copy', events) ← swiotHttpServerResponse { copy with writeBuf := c.client.writeBuf } r
  some (.answered copy.skt (events ++ [.returned ret]), { s with
    clients := s.clients.set i { c with client := { c.client with writeBuf := copy'.writeBuf } }
    behind := s.behind.set k (some copy') })

/-- A response through a pointer, which is not used for an unknown code. One into a block that was
freed is undefined. -/
def Server.respond (s : Server) (handle : Handle) (r : Reply) : Option (Outcome × Server) :=
  if urlGetHttpresp r.code r.sessionId r.data.length = [] then some (.refused, s)
  else if handle.block = s.block then
    match s.clients[handle.index]? with
    | none => s.respondCopy (handle.index - s.clients.length) r
    | some c => do
        let (ret, client, events) ← swiotHttpServerResponse c.client r
        some (.answered c.client.skt (events ++ [.returned ret]),
          { s with clients := s.clients.set handle.index { c with client := client } })
  else none

def Server.step (s : Server) : Call → Option (Outcome × Server)
  | .accept skt readJunk writeJunk moved => s.accept skt readJunk writeJunk moved
  | .enter => if s.cursor = none then some (.entered, { s with cursor := some 0 }) else none
  | .exchange now sending receiving => s.exchange now sending receiving
  | .parse fresh => s.parse fresh
  | .leave =>
      if ∃ i ∈ s.cursor, s.clients.length ≤ i then some (.left, { s with cursor := none }) else none
  | .respond handle r => s.respond handle r

end SwApi.HttpServer
