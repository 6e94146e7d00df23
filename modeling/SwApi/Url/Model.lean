import SwApi.Format.Model
import SwApi.Library.Attempt
import SwApi.Library.Bytes
import SwApi.Library.CString
import SwApi.Library.Decimal

/-! `sw_url_parse`, `sw_url_get_param_value`, `url_copy` and `sw_url_encode` of `swurl.c`. A text is
the bytes before its NUL, and a pointer into it is what lies from there on; `undefined` stands for a
read outside of the text or of an array, and for a loop that does not end. -/
namespace SwApi.Url
open Library

def peek (p : Bytes) : UInt8 := p.headD 0

def strchr (c : UInt8) : Bytes → Option Bytes
  | [] => none
  | d :: p => if d = c then some (d :: p) else strchr c p

def isAlnum (c : UInt8) : Bool :=
  97 ≤ c && c ≤ 122 || 65 ≤ c && c ≤ 90 || 48 ≤ c && c ≤ 57

def isSlash (c : UInt8) : Bool := c == 47 || c == 92

def cstr (a : Bytes) : Bytes := a.takeWhile (· != 0)

/-- `sw_url_t`; `hostname` is the whole array, of the other strings only the bytes before the
NUL are kept. -/
structure SwUrl where
  head : Bytes
  user : Bytes
  pswd : Bytes
  hostname : Bytes
  hasIpv4 : Bool
  hasIpv6 : Bool
  ip : UInt32
  ipv6 : Bytes
  port : Nat
  path : Bytes
  tail : Bytes
  suffix : Bytes
  host : Bytes
deriving DecidableEq

structure Net where
  gethostbyname2 : Bytes → UInt32
  inetAddr : Bytes → UInt32
  inetPton : Bytes → Option Bytes

/-- The scheme before the colon: back to the first byte that is no letter or digit; the first
byte of the url is not looked at. -/
def schemeOf (before : Bytes) : Bytes :=
  if before.tail.all isAlnum then before else (before.tail.reverse.takeWhile isAlnum).reverse

def skipSlash (p : Bytes) : Bytes := if isSlash (peek p) then p.tail else p

/-- The head and the text behind it. Without a byte before the colon the byte before the url
is read. -/
def findHead (url : Bytes) : Attempt (Bytes × Bytes) :=
  match strchr 58 url with
  | some p =>
      if isSlash (peek p.tail) then
        let before := url.take (url.length - p.length)
        if before = [] then .error .undefined
        else .ok ((schemeOf before).take 31, skipSlash (skipSlash p.tail))
      else .ok ([], url)
  | none => .ok ([], url)

def isBefore (q : Bytes) : Option Bytes → Bool
  | none => true
  | some r => r.length < q.length

def lastAt (r : Option Bytes) : Nat → Bytes → Bytes
  | 0, q => q
  | fuel+1, q =>
      match strchr 64 q.tail with
      | none => q
      | some q' => if isBefore q r then lastAt r fuel q' else q

/-- The arrays of user and password while they are filled; `j` is -1 before the colon. -/
structure Login where
  user : Bytes
  pswd : Bytes
  j : Int

def Login.put (l : Login) (c : UInt8) : Login :=
  if l.user.length < 31 ∧ l.j < 0 ∧ c ≠ 58 then { l with user := l.user ++ [c] }
  else if 0 ≤ l.j ∧ l.j < 31 then { l with pswd := l.pswd.set l.j.toNat c, j := l.j + 1 }
  else if c = 58 then { l with j := 0 }
  else l

def findLogin (p : Bytes) : Bytes × Bytes × Bytes :=
  let r := (strchr 47 p).or (strchr 92 p)
  match strchr 64 p with
  | none => ([], [], p)
  | some q =>
      let q := if isBefore q r then lastAt r q.length q else q
      if isBefore q r then
        let l := (p.take (p.length - q.length)).foldl Login.put ⟨[], List.replicate 32 0, -1⟩
        (l.user, cstr l.pswd, q.tail)
      else ([], [], p)

structure HostPort where
  hostname : Bytes
  hasIpv4 : Bool
  hasIpv6 : Bool
  port : Nat

def toUInt16 (n : Int) : Nat := (n % 2 ^ 16).toNat

/-- The loop over a host name: the array, the index of its next byte and the text where the
loop ends. A full array is filled from its start again. -/
def hostLoop : Bytes → Bytes → Nat → Bytes × Nat × Bytes
  | [], a, i => (a, i, [])
  | c :: p, a, i =>
      if c = 58 ∨ c = 47 ∨ c = 92 ∨ c = 63 then (a, i, c :: p)
      else
        let i := if i < 255 then i else 0
        hostLoop p (a.set i c) (i + 1)

/-- Host and port, and the text behind them; `failed` is the result -1. -/
def findHost (p : Bytes) : Attempt (HostPort × Bytes) :=
  if peek p = 91 ∧ (strchr 93 p).isSome then
    let p := p.tail
    match strchr 93 p with
    | none => .error .failed
    | some r =>
        let n := p.length - r.length
        if n = 0 then .error .failed
        else
          let m := if 256 ≤ n then 255 else n
          let hostname := p.take m ++ List.replicate (256 - m) 0
          let r := r.tail
          if peek r = 58 then
            let (port, q) := strtol r.tail
            .ok (⟨hostname, false, true, toUInt16 port⟩, q)
          else .ok (⟨hostname, false, true, 0⟩, p)
  else
    let (a, i, p) := hostLoop p (List.replicate 256 0) 0
    let hostname := a.set i 0
    if peek p = 58 then
      .ok (⟨hostname, true, false, toUInt16 (atoi p.tail)⟩, (strtol p.tail).2)
    else .ok (⟨hostname, true, false, 0⟩, p)

def lastSlash : Bytes → Nat → Bool → Option Bytes → Option Bytes
  | [], _, _, s => s
  | _ :: _, 0, _, s => s
  | c :: p, n+1, r, s =>
      if c = 63 ∨ c = 59 then lastSlash p n true s
      else lastSlash p n r (if !r && isSlash c then some (c :: p) else s)

def putTail (t : Bytes × Bytes) (c : UInt8) : Bytes × Bytes :=
  let tail := if t.1.length < 255 then t.1 ++ [c] else t.1
  if c = 46 ∨ t.2 ≠ [] then
    let suffix := if t.2 ≠ [] ∧ c = 46 then [] else t.2
    (tail, if suffix.length < 31 then suffix ++ [c] else suffix)
  else (tail, t.2)

def findTail (p : Bytes) : Bytes × Bytes :=
  match lastSlash p 1023 false none with
  | none => ([], [])
  | some s => (s.tail.takeWhile fun c => c != 63 && c != 59).foldl putTail ([], [])

/-- The digits of a group from index `j` on: the index behind them and their value; `none` is
the result false. A fourth digit ends the test. -/
def addressGroup (buf : Bytes) (j : Nat) : Nat → Nat → Nat → Attempt (Option (Nat × Nat))
  | 0, _, _ => .ok none
  | fuel+1, i, sip => do
      let c ← Attempt.ofOption buf[i]?
      if c = 46 ∨ c = 0 then .ok (some (i, sip))
      else if 2 < i - j ∨ c < 48 ∨ 57 < c then .ok none
      else addressGroup buf j fuel (i + 1) (sip * 10 + (c.toNat - 48))

def addressLoop (buf : Bytes) : Nat → Nat → Attempt Bool
  | 0, i => do
      let last ← Attempt.ofOption buf[i - 1]?
      let before ← Attempt.ofOption buf[i - 2]?
      .ok (last == 0 && before != 46)
  | k+1, j => do
      match ← addressGroup buf j 4 j 0 with
      | none => .ok false
      | some (i, sip) => if j = i ∨ 255 < sip then .ok false else addressLoop buf k (i + 1)

def isAddress (buf : Bytes) : Attempt Bool :=
  if (strchr 58 (cstr buf)).isSome then .ok true else addressLoop buf 4 0

def resolve (net : Net) (head : Bytes) (h : HostPort) : Attempt (UInt32 × Bytes) :=
  let zeros : Bytes := List.replicate 16 0
  let name := cstr h.hostname
  if CString.casecmp head [102, 105, 108, 101] = 0 ∨ name = [] then .ok (0, zeros)
  else if h.hasIpv6 then
    .ok (0, if (strchr 58 name).isSome then (net.inetPton name).getD zeros else zeros)
  else do
    if ← isAddress h.hostname then .ok (net.inetAddr name, zeros)
    else if net.gethostbyname2 name ≠ 0 then .ok (net.gethostbyname2 name, zeros)
    else .error .failed

def htons (port : Nat) : Nat := port % 256 * 256 + port / 256

def swUrlParse (net : Net) (url : Bytes) : Attempt SwUrl := do
  let (head, p) ← findHead url
  let (user, pswd, p) := findLogin p
  let (h, p) ← findHost p
  let (tail, suffix) := findTail p
  let (ip, ipv6) ← resolve net head h
  let name := cstr h.hostname
  let host := if h.port = 0 then name else name ++ 58 :: decimal h.port
  .ok ⟨head, user, pswd, h.hostname, h.hasIpv4, h.hasIpv6, ip, ipv6, htons h.port, p.take 1023,
    tail, suffix, host.take 255⟩

def isHex (c : UInt8) : Bool := 48 ≤ c && c ≤ 57 || 97 ≤ c && c ≤ 102 || 65 ≤ c && c ≤ 70

def char2Hex (c : UInt8) : Nat := if 48 ≤ c ∧ c ≤ 57 then c.toNat % 16 else c.toNat % 16 + 9

/-- The loop of `url_copy`: what it has written. Every round takes at least one byte. -/
def urlCopyLoop (size : Int) : Nat → Bytes → Nat → Bytes → Bytes
  | 0, _, _, buf => buf
  | _+1, [], _, buf => buf
  | fuel+1, c :: p, left, buf =>
      if left = 0 ∨ size ≤ buf.length then buf
      else if c = 37 ∧ isHex (peek p) = true ∧ isHex (peek p.tail) = true then
        urlCopyLoop size fuel (p.drop 2) (left - 3)
          (buf ++ [.ofNat (char2Hex (peek p) * 16 + char2Hex (peek p.tail))])
      else if c = 37 ∧ peek p = 37 then urlCopyLoop size fuel (p.drop 1) (left - 2) (buf ++ [c])
      else urlCopyLoop size fuel p (left - 1) (buf ++ [c])

/-- The bytes that `url_copy` leaves in the buffer before its NUL; their number is its result. -/
def urlCopy (url : Bytes) (len : Nat) (size : Int) : Attempt Bytes :=
  let buf := urlCopyLoop size url.length url len []
  if size ≤ 0 then .error .undefined else .ok (buf.take (size - 1).toNat)

def strstr (s : Bytes) : Bytes → Option Nat
  | [] => if s = [] then some 0 else none
  | c :: p => if s <+: c :: p then some 0 else (strstr s p).map (· + 1)

/-- The loop of `sw_url_get_param_value` from a place `i` of the name on: the index of the
value. -/
def paramLoop (url name : Bytes) : Nat → Nat → Attempt (Option Nat)
  | 0, _ => .error .undefined
  | fuel+1, i =>
      if (i = 0 ∨ url[i - 1]? = some 63 ∨ url[i - 1]? = some 38) ∧
        url[i + name.length]? = some 61 then
        .ok (some (i + name.length + 1))
      else
        match strstr name (url.drop (i + name.length)) with
        | none => .ok none
        | some d => paramLoop url name fuel (i + name.length + d)

def swUrlGetParamValue (url name : Bytes) (valuesize : Int) : Attempt (Option Bytes) :=
  match strstr name url with
  | none => .ok none
  | some i => do
      match ← paramLoop url name (url.length + 1) i with
      | none => .ok none
      | some v => do
          let p := url.drop v
          let value ← urlCopy p (p.takeWhile (· != 38)).length valuesize
          .ok (some value)

def urlCode (c : UInt8) : Bytes :=
  [37, Format.digit true (c.toNat / 16), Format.digit true (c.toNat % 16)]

def urlEncodes (c : UInt8) : Bool :=
  !(0x21 ≤ c && c ≤ 0x7E && c != 60 && c != 62 && c != 94 && c != 91 && c != 93 && c != 123 &&
    c != 125 && c != 37)

def swUrlEncode (s : Bytes) : Bytes := s.flatMap fun c => if urlEncodes c then urlCode c else [c]

end SwApi.Url
