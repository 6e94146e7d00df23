import SwApi.CoapClient.Model
import SwApi.Url.Model

/-! `coap_client.c`: the parameters of a request, the URL they come from and the options they
become. Texts are the bytes before their NUL, a pointer into a text is what lies from there on, and
`strstr` for one character is `strchr`. Allocations succeed, and texts are shorter than an `int` can
count. -/
namespace SwApi.CoapClient
open Library Coap
open Url (strchr strstr peek cstr toUInt16)

def text (s : String) : Bytes := s.toByteArray.data.toList

/-- `param_node`: the `nl` bytes at `n` and the `vl` bytes at `v`. -/
structure ParamNode where
  n : Bytes
  v : Bytes
deriving DecidableEq

def ParamNode.data (node : ParamNode) : Bytes := node.n ++ 61 :: node.v

/-- `none` is NULL. -/
def newNode (name : Bytes) (nl : Nat) (value : Bytes) (vl : Nat) : Option ParamNode :=
  if nl = 0 then none else some ⟨strncpy name nl, strncpy value vl⟩

def paramListAddNode (list : List ParamNode) : Option ParamNode → List ParamNode
  | none => list
  | some node => list ++ [node]

def paramFindNode (list : List ParamNode) (name : Bytes) : Option ParamNode :=
  list.find? fun pn => pn.n = name

def path : Bytes := text "path"

def contentFormat : Bytes := text "Content-Format"

/-- `is_address`, `CharIp_Trans_Int` and `GetServerIp`, which are not part of the sources. -/
structure Resolver where
  isAddress : Bytes → Bool
  charIpTransInt : Bytes → Int
  getServerIp : Bytes → Option Bytes

def defaultPort : Nat := 5683

def isCoap (url : Bytes) : Attempt Bool :=
  match strstr (text "coap://") url with
  | none => .error .undefined
  | some i => .ok (peek url = peek (url.drop i))

def Resolver.ipOf (net : Resolver) (host : Bytes) : Int :=
  if net.isAddress host then net.charIpTransInt host
  else
    match net.getServerIp host with
    | some ipStr => net.charIpTransInt ipStr
    | none => -1

/-- The host and its NUL have to fit 64 bytes. -/
def findIp (net : Resolver) (url : Bytes) : Attempt Int :=
  let ip := url.drop 7
  match (strchr 58 ip).or (strchr 47 ip) with
  | none => .ok (-1)
  | some p =>
      let host := ip.take (ip.length - p.length)
      if 64 ≤ host.length then .error .undefined else .ok (net.ipOf host)

/-- The text that is read and its NUL have to fit 8 bytes. -/
def findPort (url : Bytes) : Attempt Int :=
  match strchr 58 url, strchr 47 url with
  | some p, some q =>
      if q.length < p.length then
        if 8 ≤ p.length - q.length then .error .undefined
        else .ok (atoi (p.take (p.length - q.length)))
      else .ok (-1)
  | _, _ => .ok (-1)

def checkPath (url : Bytes) : Attempt Bool :=
  match strchr 47 url with
  | none => .error .undefined
  | some p =>
      match strchr 63 p with
      | none => .ok (p.getLast? ≠ some 47)
      | some q => .ok (p[p.length - q.length - 1]? ≠ some 47)

/-- A length that ends before the `=` becomes a huge one in `new_node`. -/
def addParam (list : List ParamNode) (str : Bytes) (len : Nat) : Attempt (List ParamNode) :=
  if len ≤ 1 then .ok list
  else
    match strchr 61 str with
    | none => .ok list
    | some p =>
        let nl := str.length - p.length
        if peek p = peek str then .ok list
        else if len < nl + 1 then .error .undefined
        else .ok (paramListAddNode list (newNode str nl p.tail (len - nl - 1)))

/-- From the `&` at `m` on, and the parameter behind it. -/
def param2listLoop : Nat → Bytes → List ParamNode → Attempt (List ParamNode)
  | 0, _, _ => .error .undefined
  | fuel+1, m, list =>
      match strchr 38 m.tail with
      | none => addParam list m.tail (m.length - 1)
      | some p => do
          let list ← addParam list m.tail (m.length - p.length - 1)
          if p.tail = [] then .ok list else param2listLoop fuel p list

/-- It has no result but true; every round takes an `&`. -/
def param2list (url : Bytes) (list : List ParamNode) : Attempt (List ParamNode) :=
  match strchr 47 url with
  | none => .error .undefined
  | some q =>
      match strchr 63 q.tail with
      | none => .ok (paramListAddNode list (newNode path path.length q.tail (q.length - 1)))
      | some p =>
          if p.length = 1 then .ok list
          else
            let list := paramListAddNode list
              (newNode path path.length q.tail (q.length - p.length - 1))
            match strchr 38 p with
            | none => addParam list p.tail (p.length + 1)
            | some m => do
                let list ← addParam list p.tail (p.length - m.length - 1)
                param2listLoop m.length m list

/-- What `coap_url_analysis` stores when it returns 0. -/
structure Analysis where
  ip : Int
  port : Nat
  list : List ParamNode
deriving DecidableEq

/-- `none` is the result -1. -/
def coapUrlAnalysis (net : Resolver) (url : Bytes) (list : List ParamNode) :
    Attempt (Option Analysis) := do
  if ← isCoap url then
    let ip ← findIp net url
    if ip = -1 then .ok none
    else
      let port ← findPort url
      let port := if toUInt16 port = 0 then defaultPort else toUInt16 port
      if ← checkPath (url.drop 7) then
        let list ← param2list (url.drop 7) list
        .ok (some ⟨ip, port, list⟩)
      else .ok none
  else .ok none

def uriPath : UInt8 := 11

def optContentFormat : UInt8 := 12

def uriQuery : UInt8 := 15

def isEqual (node : ParamNode) (str : Bytes) : Bool := node.n = str

def str2num (str : Bytes) : UInt8 :=
  if str = text "text/plain" then 0
  else if str = text "application/link-format" then 40
  else if str = text "application/xml" then 41
  else if str = text "application/octet-stream" then 42
  else if str = text "application/exi" then 47
  else if str = text "application/json" then 50
  else 0

/-- The options of a path, cut at its slashes, with those stored before them. There is no option
when the last slash ends the path or too many options precede one; the part behind the last slash is
stored unseen. -/
def pathLoop : List Bytes → List (CoapOption Bytes) → Bool × List (CoapOption Bytes)
  | [], opts => (true, opts)
  | [q], opts => (true, opts ++ [⟨uriPath, q⟩])
  | q :: next :: rest, opts =>
      if next = [] ∧ rest = [] then (false, opts)
      else if maxOpt ≤ opts.length then (false, opts)
      else pathLoop (next :: rest) (opts ++ [⟨uriPath, q⟩])

def queryLoop : List ParamNode → List (CoapOption Bytes) → List (CoapOption Bytes)
  | [], opts => opts
  | node :: list, opts =>
      if maxOpt - 1 ≤ opts.length then opts
      else if isEqual node contentFormat || isEqual node path then queryLoop list opts
      else queryLoop list (opts ++ [⟨uriQuery, node.data⟩])

def pathOpts (list : List ParamNode) : Bool × List (CoapOption Bytes) :=
  match paramFindNode list path with
  | none => (true, [])
  | some node => pathLoop ((cstr node.v).splitOn 47) []

def formatOpts (list : List ParamNode) (opts : List (CoapOption Bytes)) : List (CoapOption Bytes) :=
  match paramFindNode list contentFormat with
  | none => opts
  | some node => if opts.length < maxOpt - 1 then
    opts ++ [⟨optContentFormat, [str2num (cstr node.v)]⟩] else opts

/-- The result, and the options stored from `opts[0]` on. -/
def list2opts : Option (List ParamNode) → Int × List (CoapOption Bytes)
  | none => (0, [])
  | some list =>
      let (ok, opts) := pathOpts list
      if ok then
        let opts := queryLoop list (formatOpts list opts)
        (opts.length, opts)
      else (-1, opts)

structure RequestHead where
  type : UInt8
  method : UInt8
  msgid : UInt8 × UInt8
  plist : Option (List ParamNode)

/-- The result, the stores to `opts` and the packet. -/
structure Filled where
  ret : Bool
  stores : List (CoapOption Bytes)
  pkt : CoapPacket Bytes

/-- On a packet of zeros; the counter of options has 8 bits. -/
def coapClient2packet (client : RequestHead) (tok payload : Bytes) : Filled :=
  let (ret, stores) := list2opts client.plist
  ⟨true, stores,
    { hdr := ⟨1, client.type, 15 &&& UInt8.ofNat tok.length, client.method, client.msgid⟩
      tok := tok
      numopts := (ret % 256).toNat
      opts := (stores ++ List.replicate maxOpt (CoapOption.mk 0 [])).take maxOpt
      payload := payload }⟩

end SwApi.CoapClient
