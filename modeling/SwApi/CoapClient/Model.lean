import SwApi.Coap.Model
import SwApi.Library.Transition

/-! `coap_client.c`: requests, the callback for received packets and the callback for timeouts. A
requester stands before the next part of `coap_request`; the sections of `m_mutex`, the operations
of semaphores and timers and the assignments outside of the sections are one step each. A record
keeps its number when it is freed. -/
namespace SwApi.CoapClient
open Library Coap

inductive ReqResult where
  | unuse
  | init
  | sendFailed
  | waitting
  | timeout
  | failed
  | success
deriving DecidableEq

inductive MsgType where
  | con
  | noncon
  | ack
  | reset
deriving DecidableEq

/-- `coap_client_t`, without the message that is sent. -/
structure Client where
  sendCount : Nat
  recvRespSem : Bool
  msgid : UInt8 × UInt8
  type : MsgType
  result : ReqResult
  respData : Bytes
deriving DecidableEq

def maxRetransmit : Nat := 4

def respDataSize : Nat := 1024

inductive Place where
  | sending
  | arming
  | storing
  | waiting
  | finishing
  | disarming
  | analysing
  | deleting
  | freeing
  | gone
deriving DecidableEq

/-- `timer2timeout`, which fires once: the callback has started, or it has stored the result and has
to give the semaphore. -/
inductive Timer where
  | idle
  | armed
  | started
  | stored
deriving DecidableEq

/-- A record with its requester, timer and index, and the calls of `udp_recv_cb` that have to give
its semaphore. -/
structure Request where
  client : Client
  place : Place
  timer : Timer
  replies : Nat
  index : Nat
deriving DecidableEq

/-- What a step shows: a message was sent, the requester of a record left its wait, it got an
answer, or a callback touched records, of which some may have been freed. -/
inductive Outcome where
  | quiet
  | sent (r : Nat)
  | woken (r : Nat)
  | answer (r : Nat) (data : Option Bytes)
  | touched (records : List (Nat × Bool))
deriving DecidableEq

/-- The part of `coap_client_create` before the section. -/
def coapClientCreate (msgid : UInt8 × UInt8) (type : MsgType) (index : Nat) : Request :=
  ⟨⟨0, false, msgid, type, .init, []⟩, .sending, .idle, 0, index⟩

/-- `coap_analysis_response`, as far as it reads the record. -/
def coapAnalysisResponse (p : Client) : Option Bytes :=
  if p.type = .noncon ∨ p.result ≠ .success then none else some p.respData

def Request.withResult (q : Request) (result : ReqResult) (place : Place) : Request :=
  { q with client := { q.client with result := result }, place := place }

/-- One part of `coap_send_wait_request`, `coap_analysis_response` and `coap_client_delete`. A send
may fail; the wait goes on when the semaphore was given. -/
def Request.proceed (r : Nat) (sent : Bool) (q : Request) : Option (Outcome × Request) :=
  match q.place with
  | .sending =>
      if sent then
        some (.sent r, { q with place := if q.client.type = .con then .arming else .finishing })
      else
        let q := { q with client := { q.client with sendCount := q.client.sendCount + 1 } }
        if q.client.sendCount < maxRetransmit then some (.quiet, q)
        else some (.quiet, q.withResult .failed .deleting)
  | .arming => some (.quiet, { q with timer := .armed, place := .storing })
  | .storing => some (.quiet, q.withResult .waitting .waiting)
  | .waiting =>
      if q.client.recvRespSem then
        some (.woken r,
          { q with client := { q.client with recvRespSem := false }, place := .disarming })
      else none
  | .finishing => some (.quiet, q.withResult .success .disarming)
  | .disarming =>
    some (.quiet,
      { q with timer := if q.timer = .armed then .idle else q.timer, place := .analysing })
  | .analysing => some (.answer r (coapAnalysisResponse q.client), { q with place := .deleting })
  | .deleting =>
      if q.client.result ∈ [ReqResult.timeout, .failed, .success] then
        some (.quiet, { q with place := .freeing })
      else some (.quiet, q)
  | .freeing => some (.quiet, { q with place := .gone })
  | .gone => none

def Request.isLive (q : Request) : Bool :=
  match q.place with
  | .freeing => decide (q.client.type ≠ .con)
  | .gone => false
  | _ => true

/-- The part of `udp_recv_cb` that stores a reply. -/
def Request.accept (pdata : Bytes) (q : Request) : Option Request :=
  if pdata.length ≤ respDataSize then
    some { q with
      client := { q.client with respData := pdata, result := .success }, replies := q.replies + 1 }
  else none

def Request.give (q : Request) : Option Request :=
  match q.replies with
  | 0 => none
  | n+1 => some { q with client := { q.client with recvRespSem := true }, replies := n }

def Request.fire (q : Request) : Option Request :=
  if q.timer = .armed then some { q with timer := .started } else none

def Request.store (q : Request) : Option Request :=
  if q.timer = .started then
    some { q with client := { q.client with result := .timeout }, timer := .stored } else none

def Request.timeoutGive (q : Request) : Option Request :=
  if q.timer = .stored then
    some { q with client := { q.client with recvRespSem := true }, timer := .idle } else none

structure System where
  requests : List Request
  handle : List (Option Nat)
deriving DecidableEq

def System.init (num : Nat) : System := ⟨[], List.replicate num none⟩

def System.isLive (s : System) (r : Nat) : Bool := s.requests[r]?.elim false Request.isLive

def System.touch (s : System) (records : List Nat) : Outcome :=
  .touched (records.map fun r => (r, s.isLive r))

def System.update (s : System) (r : Nat) (f : Request → Option Request) : Option System := do
  let q ← s.requests[r]?
  let q' ← f q
  some { s with requests := s.requests.set r q' }

def replyId (pdata : Bytes) : Option (UInt8 × UInt8) :=
  match coapParse emptyPacket pdata with
  | .ok pkt => if pkt.hdr.t = 2 ∨ pkt.hdr.t = 3 then some pkt.hdr.id else none
  | .error _ => none

def Request.awaits (id : UInt8 × UInt8) (q : Request) : Bool :=
  q.client.msgid = id ∧ q.client.result = .waitting

/-- The loop of `udp_recv_cb`: the records it reads, and the one it finds. -/
def search (requests : List Request) (id : UInt8 × UInt8) : List (Option Nat) →
    List Nat × Option Nat
  | [] => ([], none)
  | none :: handle => search requests id handle
  | some r :: handle =>
      if (requests[r]?.elim false (Request.awaits id)) then ([r], some r)
      else
        let (read, found) := search requests id handle
        (r :: read, found)

inductive Action where
  | create (msgid : UInt8 × UInt8) (type : MsgType)
  | proceed (r : Nat) (sent : Bool)
  | receive (pdata : Bytes)
  | give (r : Nat)
  | fire (r : Nat)
  | store (r : Nat)
  | timeoutGive (r : Nat)
deriving DecidableEq

/-- The section of `coap_client_create`; without a free entry it reads one behind the last. -/
def System.create (s : System) (msgid : UInt8 × UInt8) (type : MsgType) : Option System := do
  let i ← s.handle.findIdx? Option.isNone
  some ⟨s.requests ++ [coapClientCreate msgid type i], s.handle.set i (some s.requests.length)⟩

/-- A requester takes its record out of `m_client_handle` when it deletes the semaphore. -/
def System.proceed (s : System) (r : Nat) (sent : Bool) : Option (Outcome × System) := do
  let q ← s.requests[r]?
  let (outcome, q') ← q.proceed r sent
  some (outcome,
    ⟨s.requests.set r q', if q'.place = .freeing then s.handle.set q.index none else s.handle⟩)

/-- `udp_recv_cb` up to the end of its section. -/
def System.receive (s : System) (pdata : Bytes) : Option (Outcome × System) :=
  match replyId pdata with
  | none => some (s.touch [], s)
  | some id =>
      match search s.requests id s.handle with
      | (read, none) => some (s.touch read, s)
      | (read, some r) => do
          let s' ← s.update r (Request.accept pdata)
          some (s.touch read, s')

def System.callback (s : System) (r : Nat) (f : Request → Option Request) :
    Option (Outcome × System) := do
  let s' ← s.update r f
  some (s.touch [r], s')

def step (s : System) : Action → Option (Outcome × System)
  | .create msgid type => do
      let s' ← s.create msgid type
      some (.quiet, s')
  | .proceed r sent => s.proceed r sent
  | .receive pdata => s.receive pdata
  | .give r => s.callback r Request.give
  | .fire r => do
      let s' ← s.update r Request.fire
      some (.quiet, s')
  | .store r => s.callback r Request.store
  | .timeoutGive r => s.callback r Request.timeoutGive

end SwApi.CoapClient
