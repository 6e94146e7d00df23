import SwApi.Library.Attempt
import SwApi.Library.Bytes
import SwApi.Library.CString
import SwApi.Library.Int32

/-! `json_vsnprintf` and `sw_url_vsnprintf`: the formatted printing of the C library with
another `%s`, which escapes some bytes. The two files differ in nothing else. -/
namespace SwApi.Format
open Library

/-- The buffer with the index of the next byte, which runs on behind the end; `counts` are the
numbers that `%n` has stored. -/
structure Buffer where
  mem : Bytes
  str : Nat
  counts : List Nat

/-- `if (str < end) *str = c; ++str;` -/
def Buffer.put (b : Buffer) (c : UInt8) : Buffer :=
  { b with mem := if b.str < b.mem.length then b.mem.set b.str c else b.mem, str := b.str + 1 }

def Buffer.puts (b : Buffer) (s : Bytes) : Buffer := s.foldl Buffer.put b

/-- `*str++ = c;` -/
def Buffer.store (b : Buffer) (c : UInt8) : Attempt Buffer :=
  if b.str < b.mem.length then .ok { b with mem := b.mem.set b.str c, str := b.str + 1 }
  else .error .undefined

/-- An argument as it is passed on the 32-bit target: a word, a `long long`, or a pointer to a
string. -/
inductive Arg where
  | word (w : UInt32)
  | wide (w : UInt64)
  | text (addr : UInt32) (s : CString)

def wordArg : List Arg → Attempt (Nat × List Arg)
  | .word w :: args => .ok (w.toNat, args)
  | .text addr _ :: args => .ok (addr.toNat, args)
  | _ => .error .undefined

def intArg (args : List Arg) : Attempt (Int × List Arg) := do
  let (w, args) ← wordArg args
  .ok (int32 w, args)

def wideArg : List Arg → Attempt (Nat × List Arg)
  | .wide w :: args => .ok (w.toNat, args)
  | _ => .error .undefined

/-- The pointers of the first page count as NULL and are printed as `<NULL>`. -/
def pageSize : Nat := 1024

def textArg : List Arg → Attempt (Bytes × List Arg)
  | .text addr s :: args =>
      if addr.toNat < pageSize then .ok ([60, 78, 85, 76, 76, 62], args) else .ok (s.bytes, args)
  | .word w :: args =>
      if w.toNat < pageSize then .ok ([60, 78, 85, 76, 76, 62], args) else .error .undefined
  | _ => .error .undefined

structure Flags where
  zeropad : Bool := false
  sign : Bool := false
  plus : Bool := false
  space : Bool := false
  left : Bool := false
  special : Bool := false
  large : Bool := false

def digit (large : Bool) (d : Nat) : UInt8 :=
  if d < 10 then .ofNat (48 + d) else if large then .ofNat (55 + d) else .ofNat (87 + d)

def tmpDigits (large : Bool) (base : Nat) : Nat → Nat → Bytes
  | 0, _ => []
  | n+1, num => if num = 0 then []
    else digit large (num % base) :: tmpDigits large base n (num / base)

def signByte (num : Nat) (f : Flags) : Option UInt8 :=
  if f.sign then
    if 2^63 ≤ num then some 45 else if f.plus then some 43 else if f.space then some 32 else none
  else none

def specialBytes (base : Nat) (f : Flags) : Bytes :=
  if f.special then if base = 8 then [48] else if base = 16 then [48, digit f.large 33] else []
  else []

/-- The bytes that `number` puts; only one of the loops over `size` finds it positive. -/
def number (num base : Nat) (size precision : Int) (f : Flags) : Bytes :=
  let f := if f.left then { f with zeropad := false } else f
  let sign := signByte num f
  let num := if f.sign ∧ 2^63 ≤ num then 2^64 - num else num
  let tmp := if num = 0 then [48] else tmpDigits f.large base 66 num
  let pad := (size - sign.toList.length - (specialBytes base f).length -
    max precision tmp.length).toNat
  (if f.zeropad || f.left then [] else List.replicate pad 32) ++ sign.toList ++
    specialBytes base f ++ (if f.zeropad then List.replicate pad 48 else []) ++
    List.replicate (precision - tmp.length).toNat 48 ++ tmp.reverse ++
    (if f.left then List.replicate pad 32 else [])

def isdigit (c : UInt8) : Bool := 48 ≤ c && c ≤ 57

def skipAtoi : Bytes → Nat → Nat × Bytes
  | [], i => (i, [])
  | c :: fmt, i => if isdigit c then skipAtoi fmt (i * 10 + (c.toNat - 48)) else (i, c :: fmt)

/-- A number in the format; one that is no `int` overflows. -/
def atoi (fmt : Bytes) : Attempt (Int × Bytes) :=
  let (i, fmt) := skipAtoi fmt 0
  if i < 2^31 then .ok (i, fmt) else .error .undefined

def skipFlags : Bytes → Flags → Flags × Bytes
  | [], f => (f, [])
  | c :: fmt, f =>
      if c = 45 then skipFlags fmt { f with left := true }
      else if c = 43 then skipFlags fmt { f with plus := true }
      else if c = 32 then skipFlags fmt { f with space := true }
      else if c = 35 then skipFlags fmt { f with special := true }
      else if c = 48 then skipFlags fmt { f with zeropad := true }
      else (f, c :: fmt)

def peek (fmt : Bytes) : UInt8 := fmt.headD 0

def fieldWidth (fmt : Bytes) (args : List Arg) (f : Flags) :
    Attempt (Int × Flags × Bytes × List Arg) :=
  if isdigit (peek fmt) then do
    let (width, fmt) ← atoi fmt
    .ok (width, f, fmt, args)
  else if peek fmt = 42 then do
    let (width, args) ← intArg args
    if width < 0 then .ok (int32 (-width), { f with left := true }, fmt.tail, args)
    else .ok (width, f, fmt.tail, args)
  else .ok (-1, f, fmt, args)

def getPrecision (fmt : Bytes) (args : List Arg) : Attempt (Int × Bytes × List Arg) :=
  if peek fmt = 46 then
    let fmt := fmt.tail
    if isdigit (peek fmt) then do
      let (precision, fmt) ← atoi fmt
      .ok (max precision 0, fmt, args)
    else if peek fmt = 42 then do
      let (precision, args) ← intArg args
      .ok (max precision 0, fmt.tail, args)
    else .ok (0, fmt, args)
  else .ok (-1, fmt, args)

/-- The qualifiers h, l, L, Z, z and t; `ll` is L, and 0 stands for none. -/
def getQualifier (fmt : Bytes) : UInt8 × Bytes :=
  if peek fmt ∈ ([104, 108, 76, 90, 122, 116] : Bytes) then
    if peek fmt = 108 ∧ peek fmt.tail = 108 then (76, fmt.tail.tail) else (peek fmt, fmt.tail)
  else (0, fmt)

def signExtend (bits w : Nat) : Nat := if w < 2^(bits - 1) then w else w + 2^64 - 2^bits

def numArg (qualifier : UInt8) (f : Flags) (args : List Arg) : Attempt (Nat × List Arg) :=
  if qualifier = 76 then wideArg args
  else do
    let (w, args) ← wordArg args
    if qualifier = 90 ∨ qualifier = 122 then .ok (w, args)
    else if qualifier = 116 then .ok (signExtend 32 w, args)
    else if qualifier = 104 then
      .ok (if f.sign then signExtend 16 (w % 2^16) else w % 2^16, args)
    else .ok (if f.sign then signExtend 32 w else w, args)

/-- What the two files have of their own: the bytes of `%s` that are escaped, and how. `none`
is the `break` that leaves the loop. -/
structure Escape where
  special : UInt8 → Bool
  emit : UInt8 → Buffer → Attempt (Option Buffer)

section
variable (e : Escape)

def copyLoop (escaped : Bool) : Bytes → Buffer → Attempt Buffer
  | [], b => .ok b
  | c :: s, b =>
      if b.str < b.mem.length then
        if escaped && e.special c then do
          match ← e.emit c b with
          | none => .ok b
          | some b => copyLoop escaped s b
        else do
          let b ← b.store c
          copyLoop escaped s b
      else copyLoop escaped s { b with str := b.str + 1 }

/-- `escaped` is `*fmt=='s'`. -/
def printString (escaped : Bool) (f : Flags) (width precision : Int) (s : Bytes) (b : Buffer) :
    Attempt Buffer := do
  let s := if 0 ≤ precision then s.take precision.toNat else s
  let pad := List.replicate (width - s.length).toNat 32
  let b ← copyLoop e escaped s (if f.left then b else b.puts pad)
  .ok (if f.left then b.puts pad else b)

def printChar (f : Flags) (width : Int) (c : UInt8) (b : Buffer) : Buffer :=
  let pad := List.replicate (width - 1).toNat 32
  b.puts (if f.left then c :: pad else pad ++ [c])

def printNumber (f : Flags) (width precision : Int) (qualifier : UInt8) (base : Nat)
    (args : List Arg) (b : Buffer) : Attempt (List Arg × Buffer) := do
  let (num, args) ← numArg qualifier f args
  .ok (args, b.puts (number num base width precision f))

def convert (c : UInt8) (f : Flags) (width precision : Int) (qualifier : UInt8) (args : List Arg)
    (b : Buffer) : Attempt (List Arg × Buffer) :=
  if c = 99 then do
    let (w, args) ← wordArg args
    .ok (args, printChar f width (.ofNat w) b)
  else if c = 83 ∨ c = 115 then do
    let (s, args) ← textArg args
    let b ← printString e (c == 115) f width precision s b
    .ok (args, b)
  else if c = 112 then do
    let (w, args) ← wordArg args
    let f := if width = -1 then { f with zeropad := true } else f
    let width := if width = -1 then 8 else width
    .ok (args, b.puts (number w 16 width precision f))
  else if c = 110 then do
    let (_, args) ← wordArg args
    .ok (args, { b with counts := b.counts ++ [b.str] })
  else if c = 37 then .ok (args, b.put 37)
  else if c = 111 then printNumber f width precision qualifier 8 args b
  else if c = 88 then printNumber { f with large := true } width precision qualifier 16 args b
  else if c = 120 then printNumber f width precision qualifier 16 args b
  else if c = 100 ∨ c = 105 then
    printNumber { f with sign := true } width precision qualifier 10 args b
  else if c = 117 then printNumber f width precision qualifier 10 args b
  else if c = 0 then .ok (args, b.put 37)
  else .ok (args, (b.put 37).put c)

/-- A conversion behind its percent sign; the result is what is left of the format. -/
def directive (fmt : Bytes) (args : List Arg) (b : Buffer) :
    Attempt (Bytes × List Arg × Buffer) := do
  let (f, fmt) := skipFlags fmt {}
  let (width, f, fmt, args) ← fieldWidth fmt args f
  let (precision, fmt, args) ← getPrecision fmt args
  let (qualifier, fmt) := getQualifier fmt
  let (args, b) ← convert e (peek fmt) f width precision qualifier args b
  .ok (fmt.tail, args, b)

/-- Every round takes at least one byte. -/
def printLoop : Nat → Bytes → List Arg → Buffer → Attempt Buffer
  | 0, _, _, b => .ok b
  | _+1, [], _, b => .ok b
  | fuel+1, c :: fmt, args, b =>
      if c ≠ 37 then printLoop fuel fmt args (b.put c)
      else do
        let (fmt, args, b) ← directive e fmt args b
        printLoop fuel fmt args b

/-- The number that is returned is `str` of the result. -/
def vsnprintf (mem : Bytes) (fmt : CString) (args : List Arg) : Attempt Buffer :=
  if int32 mem.length ≤ 0 then .ok ⟨mem, 0, []⟩
  else do
    let b ← printLoop e fmt.bytes.length fmt.bytes args ⟨mem, 0, []⟩
    if b.str < b.mem.length then .ok { b with mem := b.mem.set b.str 0 }
    else .ok { b with mem := b.mem.set (b.mem.length - 1) 0, str := b.mem.length - 1 }

end

def jsonLetter (c : UInt8) : UInt8 :=
  if c = 8 then 98 else if c = 12 then 102 else if c = 13 then 114 else if c = 10 then 110
  else if c = 9 then 116 else c

def jsonEscape : Escape where
  special c := c == 34 || c == 92 || c == 47 || c == 8 || c == 12 || c == 13 || c == 10 || c == 9
  emit c b := do
    let b ← b.store 92
    .ok (some (b.put (jsonLetter c)))

def urlEscape : Escape where
  special c := 0 < c && c < 32 || c == 127 || c == 37 || c == 63 || c == 38 || c == 64 || c == 58 ||
    c == 47 || c == 59
  emit c b :=
    if b.mem.length ≤ b.str + 3 then .ok none
    else do
      let b ← b.store 37
      let b ← b.store (digit true (c.toNat / 16))
      let b ← b.store (digit true (c.toNat % 16))
      .ok (some b)

def jsonVsnprintf (mem : Bytes) (fmt : CString) (args : List Arg) : Attempt Buffer :=
  vsnprintf jsonEscape mem fmt args

def swUrlVsnprintf (mem : Bytes) (fmt : CString) (args : List Arg) : Attempt Buffer :=
  vsnprintf urlEscape mem fmt args

end SwApi.Format
