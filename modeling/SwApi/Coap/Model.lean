import SwApi.Coap.Message
import SwApi.Library.Attempt
import SwApi.Library.Slice

/-! `coap.c`: parsing and building packets. Pointers into the message that is parsed are indexes; a
read outside of it and a store outside of `opts` are undefined. Sizes of objects in memory are taken
to add up without overflow. -/
namespace SwApi.Coap
open Library

def maxOpt : Nat := 16

structure CoapHeader where
  ver : UInt8
  t : UInt8
  tkl : UInt8
  code : UInt8
  id : UInt8 × UInt8
deriving DecidableEq

/-- `coap_option_t`; a buffer is a slice of a message, or bytes. -/
structure CoapOption (β : Type) where
  num : UInt8
  buf : β
deriving DecidableEq

structure CoapPacket (β : Type) where
  hdr : CoapHeader
  tok : β
  numopts : Nat
  opts : List (CoapOption β)
  payload : β
deriving DecidableEq

def CoapPacket.options (pkt : CoapPacket β) : List (CoapOption β) := pkt.opts.take pkt.numopts

def emptyPacket : CoapPacket Slice :=
  ⟨⟨0, 0, 0, 0, (0, 0)⟩, .null, 0, List.replicate maxOpt ⟨0, .null⟩, .null⟩

inductive CoapError where
  | headerTooShort
  | versionNot1
  | tokenTooShort
  | optionTooShortForHeader
  | optionOverrunsPacket
  | optionTooBig
  | optionLenInvalid
  | bufferTooSmall
  | unsupported
  | optionDeltaInvalid
deriving DecidableEq

inductive Fault where
  | undefined
  | code (e : CoapError)
deriving DecidableEq

abbrev Result (α : Type) := Except Fault α

def fail (e : CoapError) : Result α := .error (.code e)

def byteAt (buf : Bytes) (i : Nat) : Result UInt8 :=
  match buf[i]? with
  | some b => .ok b
  | none => .error .undefined

def parseHeader (buf : Bytes) : Result CoapHeader :=
  if buf.length < 4 then fail .headerTooShort
  else do
    let b ← byteAt buf 0
    let ver := (b &&& 0xC0) >>> 6
    if ver ≠ 1 then fail .versionNot1
    else do
      let code ← byteAt buf 1
      let id0 ← byteAt buf 2
      let id1 ← byteAt buf 3
      .ok ⟨ver, (b &&& 0x30) >>> 4, b &&& 0x0F, code, (id0, id1)⟩

def parseToken (hdr : CoapHeader) (buf : Bytes) : Result Slice :=
  if hdr.tkl = 0 then .ok .null
  else if hdr.tkl ≤ 8 then
    if buf.length < 4 + hdr.tkl.toNat then fail .tokenTooShort
    else .ok ⟨some 4, hdr.tkl.toNat⟩
  else fail .tokenTooShort

/-- What follows the four bits of a delta or a length: the 16-bit value, the new `p` and `headlen`.
-/
def extended (buf : Bytes) (buflen : Nat) (invalid : CoapError) (bits p headlen : Nat) :
    Result (Nat × Nat × Nat) :=
  if bits = 13 then
    if buflen < headlen + 1 then fail .optionTooShortForHeader
    else do
      let b ← byteAt buf (p + 1)
      .ok (b.toNat + 13, p + 1, headlen + 1)
  else if bits = 14 then
    if buflen < headlen + 2 then fail .optionTooShortForHeader
    else do
      let b ← byteAt buf (p + 1)
      let b' ← byteAt buf (p + 2)
      .ok ((b.toNat * 256 + b'.toNat + 269) % 2 ^ 16, p + 2, headlen + 2)
  else if bits = 15 then fail invalid
  else .ok (bits, p, headlen)

/-- `coap_parseOption`: the option, and the new `*buf` and `*running_delta`. -/
def parseOption (buf : Bytes) (runningDelta p buflen : Nat) :
    Result (CoapOption Slice × Nat × Nat) :=
  if buflen < 1 then fail .optionTooShortForHeader
  else do
    let b ← byteAt buf p
    let (delta, q, headlen) ← extended buf buflen .optionDeltaInvalid ((b &&& 0xF0) >>> 4).toNat p 1
    let (len, q, _) ← extended buf buflen .optionLenInvalid (b &&& 0x0F).toNat q headlen
    if p + buflen < q + 1 + len then fail .optionTooBig
    else .ok (⟨UInt8.ofNat (delta + runningDelta), ⟨some (q + 1), len⟩⟩, q + 1 + len,
      (runningDelta + delta) % 2 ^ 16)

def storeOption (options : List (CoapOption Slice)) (i : Nat) (o : CoapOption Slice) :
    Result (List (CoapOption Slice)) :=
  if i < options.length then .ok (options.set i o) else .error .undefined

/-- The first argument is `*numOptions - optionIndex`. -/
def optionsLoop (buf : Bytes) : Nat → List (CoapOption Slice) → Nat → Nat → Nat →
    Result (List (CoapOption Slice) × Nat × Nat)
  | 0, options, optionIndex, _, p => .ok (options, optionIndex, p)
  | left+1, options, optionIndex, delta, p =>
      if p < buf.length then do
        let b ← byteAt buf p
        if b = 0xFF then .ok (options, optionIndex, p)
        else do
          let (o, p, delta) ← parseOption buf delta p (buf.length - p)
          let options ← storeOption options optionIndex o
          optionsLoop buf left options (optionIndex + 1) delta p
      else .ok (options, optionIndex, p)

def parsePayload (buf : Bytes) (p : Nat) : Result Slice :=
  if p + 1 < buf.length then do
    let b ← byteAt buf p
    .ok (if b = 0xFF then ⟨some (p + 1), buf.length - (p + 1)⟩ else .null)
  else .ok .null

def coapParse (pkt : CoapPacket Slice) (buf : Bytes) : Result (CoapPacket Slice) := do
  let hdr ← parseHeader buf
  let tok ← parseToken hdr buf
  let p := 4 + hdr.tkl.toNat
  if buf.length < p then fail .optionOverrunsPacket
  else do
    let (opts, numopts, p) ← optionsLoop buf maxOpt pkt.opts 0 0 p
    let payload ← parsePayload buf p
    .ok ⟨hdr, tok, numopts, opts, payload⟩

/-- What `*nibble` holds behind it. -/
def coapOptionNibble (value nibble : Nat) : Nat :=
  if value < 13 then value
  else if value ≤ 0xFF + 13 then 13
  else if value ≤ 0xFFFF + 269 then 14
  else nibble

/-- One round of the loop of `coap_build`; `delta` is 0 before its nibble is found, `len` holds
`junk`. -/
def buildOption (junk runningDelta : Nat) (o : CoapOption Bytes) : Bytes :=
  let optDelta := (o.num.toNat + 2 ^ 32 - runningDelta) % 2 ^ 32
  let size := o.buf.length
  let delta := coapOptionNibble optDelta 0
  let len := coapOptionNibble size junk
  UInt8.ofNat (delta <<< 4 ||| len) ::
    ((if delta = 13 then [UInt8.ofNat (optDelta - 13)]
      else if delta = 14 then [UInt8.ofNat ((optDelta - 269) / 256), UInt8.ofNat (optDelta - 269)]
      else []) ++
    ((if len = 13 then [UInt8.ofNat (size - 13)]
      else if len = 14 then [UInt8.ofNat (size / 256), UInt8.ofNat (size - 269)]
      else []) ++ o.buf))

/-- The loop of `coap_build`, with the bytes up to `p`; `false` when it finds the buffer too small.
-/
def buildOptions (junk : Nat → Nat) (buflen : Nat) : List (CoapOption Bytes) → Nat → Bytes →
    Bool × Bytes
  | [], _, out => (true, out)
  | o :: options, runningDelta, out =>
      if buflen < out.length then (false, out)
      else buildOptions junk buflen options o.num.toNat
        (out ++ buildOption (junk out.length) runningDelta o)

/-- The result, the bytes from `buf[0]` on, and `*buflen`. -/
structure Built where
  rc : Option CoapError
  out : Bytes
  buflen : Nat
deriving DecidableEq

def headerBytes (hdr : CoapHeader) : Bytes :=
  [((hdr.ver &&& 0x03) <<< 6) ||| ((hdr.t &&& 0x03) <<< 4) ||| (hdr.tkl &&& 0x0F), hdr.code,
    hdr.id.1, hdr.id.2]

def buildPayload (buflen : Nat) (payload out : Bytes) : Built :=
  if 0 < payload.length then
    if buflen < out.length + 1 + payload.length then ⟨some .bufferTooSmall, out, buflen⟩
    else ⟨none, out ++ 0xFF :: payload, out.length + 1 + payload.length⟩
  else ⟨none, out, out.length⟩

def buildRest (buflen : Nat) (payload : Bytes) : Bool × Bytes → Built
  | (false, out) => ⟨some .bufferTooSmall, out, buflen⟩
  | (true, out) => buildPayload buflen payload out

/-- By the place of an option, `junk` is what `len` holds before it is set. -/
def coapBuild (junk : Nat → Nat) (buflen : Nat) (pkt : CoapPacket Bytes) : Built :=
  let tkl := pkt.hdr.tkl.toNat
  if buflen < 4 + tkl then ⟨some .bufferTooSmall, [], buflen⟩
  else if 0 < tkl ∧ tkl ≠ pkt.tok.length then ⟨some .unsupported, headerBytes pkt.hdr, buflen⟩
  else buildRest buflen pkt.payload
    (buildOptions junk buflen pkt.options 0 (headerBytes pkt.hdr ++ pkt.tok.take tkl))

end SwApi.Coap
