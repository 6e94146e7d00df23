import SwApi.Library.Block
import SwApi.Library.Bytes
import SwApi.Library.CString
import SwApi.Library.Trace

/-! `swdns.c`: the query that is sent and the response that is parsed. The memory from
`response_buf` on is a function of the index, so that a read behind the response has a value too;
every access is written down. A negative `response_len` is taken as 0, since no position that is
compared with it is negative. Pointers have four bytes, and sizes of objects in memory are taken to
add up without overflow. -/
namespace SwApi.Dns
open Library

abbrev Memory := Nat → UInt8

/-- What was written from the start of the buffer on, and the length returned, or -1. -/
structure Written where
  ret : Option Nat
  out : Bytes
deriving DecidableEq

/-- One round for each part of the name between dots; `false` is the result -1. -/
def nameLoop (buflen : Int) : List Bytes → Bytes → Bool × Bytes
  | [], out => (true, out)
  | label :: labels, out =>
      if buflen - 6 ≤ out.length + label.length then (false, out)
      else nameLoop buflen labels (out ++ UInt8.ofNat label.length :: label)

def makeNameQuery (buflen : Int) (name : Bytes) : Written :=
  match nameLoop buflen (name.splitOn 46) [] with
  | (false, out) => ⟨none, out⟩
  | (true, out) =>
      let out := if out.getLast? = some 0 then out else out ++ [0]
      ⟨some (out.length + 4), out ++ [0, 1, 0, 1]⟩

/-- The id in network order, the flags, one question, and three counts that are 0. -/
def queryHeader (transactionId : UInt16) : Bytes :=
  [UInt8.ofNat (transactionId.toNat / 256), UInt8.ofNat transactionId.toNat, 1, 0, 0, 1, 0, 0, 0, 0,
    0, 0]

def makeDnsQuery (buflen : Int) (transactionId : UInt16) (dnsName : Bytes) : Written :=
  if buflen < 18 then ⟨none, []⟩
  else
    let query := makeNameQuery (buflen - 12) dnsName
    ⟨query.ret.map (12 + ·), queryHeader transactionId ++ query.out⟩

/-- `n` bytes of an array from an index on; a read of `szName` finds it stored or not. -/
inductive Event where
  | load (first n : Nat)
  | storeName (first n : Nat)
  | loadName (stored : Bool)
  | storeAddr (n : Nat)
  | storeHost (first n : Nat)
deriving DecidableEq

def szNameSize : Nat := 512

def szAddrSize : Nat := 32

def Event.Inside (responseLen hostentLen : Nat) : Event → Prop
  | .load first n => first + n ≤ responseLen
  | .storeName first n => first + n ≤ szNameSize
  | .loadName stored => stored = true
  | .storeAddr n => n ≤ szAddrSize
  | .storeHost first n => first + n ≤ hostentLen

instance (e : Event) : Decidable (e.Inside responseLen hostentLen) := by
  unfold Event.Inside
  split <;> infer_instance

def loadByte (buf : Memory) (i : Nat) : Trace Event UInt8 := do
  .emit (.load i 1)
  pure (buf i)

def loadShort (buf : Memory) (i : Nat) : Trace Event Nat := do
  let hi ← loadByte buf i
  let lo ← loadByte buf (i + 1)
  pure (hi.toNat <<< 8 ||| lo.toNat)

def slice (buf : Memory) (i n : Nat) : Bytes := (List.range n).map fun k => buf (i + k)

/-- `ret_len` is the length of `ret_alias`. -/
structure Alias where
  i : Nat
  len : Nat
  redirectCnt : Nat
  retAlias : Bytes
deriving DecidableEq

def isPointer (b : UInt8) : Bool := b &&& 0xc0 = 0xc0

def pointee (hi lo : UInt8) : Nat := (hi.toNat <<< 8 ||| lo.toNat) &&& 0x3fff

def Alias.count (c : Alias) (n : Nat) : Nat := if c.redirectCnt = 0 then c.len + n else c.len

def Alias.redirect (c : Alias) (i : Nat) : Alias := ⟨i, c.count 2, c.redirectCnt + 1, c.retAlias⟩

def Alias.dot (c : Alias) : Bytes := if 0 < c.retAlias.length then [46] else []

def Alias.label (c : Alias) (label : Bytes) : Alias :=
  ⟨c.i + 1 + label.length, c.count (1 + label.length), c.redirectCnt, c.retAlias ++ c.dot ++ label⟩

/-- A round of `parse_alias`, and whether another one follows. -/
def aliasRound (buf : Memory) (responseLen : Nat) (c : Alias) : Trace Event (Bool × Alias) :=
  if c.i < responseLen then do
    let b ← loadByte buf c.i
    if b = 0 then pure (false, { c with len := c.count 1 })
    else if isPointer b then do
      let lo ← loadByte buf (c.i + 1)
      pure (true, c.redirect (pointee b lo))
    else do
      .emit (.storeName c.retAlias.length c.dot.length)
      .emit (.load (c.i + 1) b.toNat)
      .emit (.storeName (c.retAlias.length + c.dot.length) b.toNat)
      pure (true, c.label (slice buf (c.i + 1) b.toNat))
  else pure (false, c)

def aliasLoop (buf : Memory) (responseLen : Nat) : Nat → Alias → Trace Event Alias
  | 0, _ => .stuck
  | fuel+1, c => do
      let (more, c) ← aliasRound buf responseLen c
      if more then aliasLoop buf responseLen fuel c else pure c

/-- The result, and `ret_alias` before the NUL that is stored. -/
def parseAlias (fuel : Nat) (buf : Memory) (responseLen pos : Nat) : Trace Event (Nat × Bytes) := do
  let c ← aliasLoop buf responseLen fuel ⟨pos, 0, 0, []⟩
  .emit (.storeName c.retAlias.length 1)
  pure (c.len, c.retAlias)

/-- `addr` are the first `*addrlen` bytes of `ipaddr`. -/
structure Answer where
  n : Nat
  name : Bytes
  addrtype : Nat
  addr : Bytes
deriving DecidableEq

def parseAnswer (fuel : Nat) (buf : Memory) (responseLen pos : Nat) : Trace Event Answer := do
  let (n, name) ← parseAlias fuel buf responseLen pos
  let nType ← loadShort buf (pos + n)
  let _ ← loadShort buf (pos + n + 2)
  .emit (.load (pos + n + 4) 4)
  let nDataLen ← loadShort buf (pos + n + 8)
  if nType = 1 then do
    .emit (.load (pos + n + 10) nDataLen)
    .emit (.storeAddr nDataLen)
    pure ⟨n + 10 + nDataLen, name, nType, slice buf (pos + n + 10) nDataLen⟩
  else pure ⟨n + 10 + nDataLen, name, nType, []⟩

/-- A pointer in `hostent_buf`: into the buffer, or one that was there before the call. -/
inductive Pointer where
  | null
  | into (offset : Nat)
  | stale
deriving DecidableEq

def pointerAt (hostentBuf : Bytes) (offset : Nat) : Pointer :=
  if ((hostentBuf.drop offset).take 4).all (· == 0) then .null else .stale

/-- `sizeof(struct hostent)`. -/
def sizeofHostent : Nat := 20

/-- `struct hostent` with its arrays, and `host_len`. The bytes of the pointers are left out of
`buf`. -/
structure Hostent where
  hName : Nat
  hAddrList : List Pointer
  hAliases : List Pointer
  hLength : Nat
  hAddrtype : Nat
  buf : Bytes
  hostLen : Nat
deriving DecidableEq

def Hostent.string (h : Hostent) (offset : Nat) : Bytes := (cstring (h.buf.drop offset)).bytes

def Pointer.differs (same : Nat → Bool) : Pointer → Bool
  | .null => false
  | .into offset => !same offset
  | .stale => true

/-- The index at which the loops over the arrays stop. -/
def slotOf (answers : Nat) (same : Nat → Bool) (slots : List Pointer) : Nat :=
  ((slots.take answers).takeWhile (Pointer.differs same)).length

def Hostent.addressSlot (h : Hostent) (answers : Nat) (addr : Bytes) : Nat :=
  slotOf answers (fun offset => (h.buf.drop offset).take addr.length == addr) h.hAddrList

def Hostent.aliasSlot (h : Hostent) (answers : Nat) (name : Bytes) : Nat :=
  slotOf answers (fun offset => h.string offset == name) h.hAliases

/-- `h->h_addr_list[j] == NULL`. -/
def Hostent.lacksAddress (h : Hostent) (answers : Nat) (addr : Bytes) : Bool :=
  h.hAddrList[h.addressSlot answers addr]? = some .null

/-- `h->h_aliases[j] == NULL`. -/
def Hostent.lacksAlias (h : Hostent) (answers : Nat) (name : Bytes) : Bool :=
  h.hAliases[h.aliasSlot answers name]? = some .null

def Hostent.withAddress (h : Hostent) (answers : Nat) (addr : Bytes) : Hostent :=
  { h with
    hAddrList := h.hAddrList.set (h.addressSlot answers addr) (.into h.hostLen)
    buf := overwrite h.buf h.hostLen addr
    hostLen := h.hostLen + addr.length }

def Hostent.withAlias (h : Hostent) (answers : Nat) (name : Bytes) : Hostent :=
  { h with
    hAliases := h.hAliases.set (h.aliasSlot answers name) (.into h.hostLen)
    buf := overwrite h.buf h.hostLen (strncpy name szNameSize)
    hostLen := h.hostLen + name.length + 1 }

/-- `(host_len + 3) & ~3`. -/
def align (hostLen : Nat) : Nat := (hostLen + 3) / 4 * 4

def Hostent.aligned (h : Hostent) : Hostent := { h with hostLen := align h.hostLen }

def Answer.string (answer : Answer) : Bytes := (cstring answer.name).bytes

def storeAddress (answers : Nat) (addr : Bytes) (h : Hostent) : Trace Event Hostent :=
  if h.lacksAddress answers addr then do
    .emit (.storeHost (sizeofHostent + 4 * h.addressSlot answers addr) 4)
    .emit (.storeHost h.hostLen addr.length)
    pure (h.withAddress answers addr)
  else pure h

def storeAlias (answers : Nat) (name : Bytes) (h : Hostent) : Trace Event Hostent :=
  if h.lacksAlias answers name then do
    .emit (.storeHost (sizeofHostent + 4 * (answers + 1) + 4 * h.aliasSlot answers name) 4)
    .emit (.storeHost h.hostLen szNameSize)
    pure (h.withAlias answers name)
  else pure h

/-- The part of a round for an address; `none` is the result -6. -/
def storeAnswer (answers : Nat) (answer : Answer) (h : Hostent) : Trace Event (Option Hostent) :=
  if answer.addr = [] then pure (some h)
  else if h.buf.length ≤ h.hostLen + answer.addr.length + answer.string.length then pure none
  else do
    let h ← storeAddress answers answer.addr h.aligned
    let h ← storeAlias answers answer.string h
    .emit (.storeHost 8 8)
    pure (some { h with hLength := answer.addr.length, hAddrtype := answer.addrtype })

abbrev Reply := Int × Option Hostent

def finish (h : Hostent) : Reply := (if h.hAddrList.head? = some .null then -5 else 0, some h)

/-- The first argument is `answers - i`. -/
def answersLoop (fuel : Nat) (buf : Memory) (responseLen answers : Nat) : Nat → Nat → Hostent →
    Trace Event Reply
  | 0, _, h => pure (finish h)
  | left+1, len, h => do
      let answer ← parseAnswer fuel buf responseLen len
      let stored ← storeAnswer answers answer h
      match stored with
      | none => pure (-6, some h)
      | some h =>
          if responseLen ≤ len + answer.n then pure (finish h)
          else answersLoop fuel buf responseLen answers left (len + answer.n) h

/-- The first argument is `questions - i`. -/
def questionsLoop (fuel : Nat) (buf : Memory) (responseLen : Nat) : Nat → Nat → Option Bytes →
    Trace Event (Nat × Option Bytes)
  | 0, len, szName => pure (len, szName)
  | left+1, len, _ => do
      let (n, name) ← parseAlias fuel buf responseLen len
      questionsLoop fuel buf responseLen left (len + n + 4) (some name)

/-- The last entry of `h_aliases` is not cleared. -/
def newHostent (hostentBuf : Bytes) (answers : Nat) (name : Bytes) : Hostent :=
  let hName := sizeofHostent + 8 * (answers + 1)
  { hName := hName
    hAddrList := List.replicate (answers + 1) .null
    hAliases := List.replicate answers .null ++
      [pointerAt hostentBuf (sizeofHostent + 4 * (answers + 1) + 4 * answers)]
    hLength := 0
    hAddrtype := 0
    buf := overwrite hostentBuf hName (strncpy name szNameSize)
    hostLen := hName + name.length + 1 }

/-- The part of `parse_dns_response` behind the questions. -/
def fillHostent (fuel : Nat) (buf : Memory) (responseLen : Nat) (hostentBuf : Bytes)
    (answers len : Nat) (name : Bytes) : Trace Event Reply :=
  if hostentBuf.length ≤ sizeofHostent + (answers + 1) * 2 * 4 + name.length then pure (-6, none)
  else do
    .emit (.storeHost 16 4)
    .emit (.storeHost sizeofHostent (4 * (answers + 1)))
    .emit (.storeHost 4 4)
    .emit (.storeHost (sizeofHostent + 4 * (answers + 1)) (4 * answers))
    .emit (.storeHost 0 4)
    .emit (.storeHost (sizeofHostent + 8 * (answers + 1)) szNameSize)
    answersLoop fuel buf responseLen answers answers len (newHostent hostentBuf answers name)

/-- `junk` is what `szName` spells before anything is stored in it. -/
def parseDnsResponse (fuel : Nat) (buf : Memory) (responseLen : Nat) (hostentBuf junk : Bytes) :
    Trace Event Reply := do
  let flags ← loadShort buf 2
  let errcode := flags &&& 0x000f
  if errcode ≠ 0 then pure ((errcode : Int), none)
  else do
    let questions ← loadShort buf 4
    let answers ← loadShort buf 6
    let (len, szName) ← questionsLoop fuel buf responseLen questions 12 none
    .emit (.loadName szName.isSome)
    fillHostent fuel buf responseLen hostentBuf answers len (cstring (szName.getD junk)).bytes

end SwApi.Dns
