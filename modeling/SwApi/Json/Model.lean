import SwApi.Library.Attempt
import SwApi.Library.Bytes
import SwApi.Library.Int32

/-! The decoder of `swjson.c`. A text is its bytes with the NUL at the end; a pointer into it
is what lies from there on. The decoder cuts a container into the slices of its members and
then decodes every slice. `undefined` stands for a read behind the NUL, `failed` for a result
-1 or NULL. -/
namespace SwApi.Json
open Library

def isAlpha (ch : UInt8) : Bool :=
  48 ≤ ch && ch ≤ 57 || 97 ≤ ch && ch ≤ 122 || 65 ≤ ch && ch ≤ 90 || ch == 45 || ch == 95 ||
    ch == 64 || ch == 36

/-- `IS_CTRL`: the last byte is a tab, not the letter t. -/
def isCtrl (ch : UInt8) : Bool :=
  ch == 34 || ch == 92 || ch == 47 || ch == 98 || ch == 102 || ch == 110 || ch == 114 || ch == 9

def isBlank (ch : UInt8) : Bool := ch == 32 || ch == 9 || ch == 13 || ch == 10

def isQuote (ch : UInt8) : Bool := ch == 34 || ch == 39

/-- A pointer `p`, and the number of bytes from there to the end of the part that is decoded. -/
structure Cursor where
  p : Bytes
  left : Nat

def Cursor.first (c : Cursor) : Attempt UInt8 := .ofOption c.p.head?

def Cursor.advance (c : Cursor) (n : Nat) : Cursor := ⟨c.p.drop n, c.left - n⟩

/-- The loop of `get_string_length` behind the quote `ch`; `n` bytes lie behind `p`. -/
def quotedLength (ch : UInt8) : Bytes → Nat → Nat → Attempt Int
  | _, 0, _ => .ok (-1)
  | [], _+1, _ => .error .undefined
  | [c], left+1, n =>
      if c = 92 then .error .undefined
      else if c = ch then .ok (n + 1)
      else quotedLength ch [] left (n + 1)
  | c :: e :: p, left+1, n =>
      if c = 92 then
        if isCtrl e then quotedLength ch p (left - 1) (n + 2)
        else quotedLength ch (e :: p) left (n + 1)
      else if c = ch then .ok (n + 1)
      else quotedLength ch (e :: p) left (n + 1)

def atomLength : Bytes → Nat → Attempt Nat
  | _, 0 => .ok 0
  | [], _+1 => .error .undefined
  | c :: p, left+1 =>
      if isAlpha c then do
        let n ← atomLength p left
        .ok (n + 1)
      else .ok 0

def getStringLength (c : Cursor) : Attempt Int := do
  let ch ← c.first
  if isQuote ch then quotedLength ch (c.p.drop 1) (c.left - 1) 1
  else do
    let n ← atomLength c.p c.left
    .ok n

/-- The loop of `get_json_length`; every round takes at least one byte. `depth` is `n` of the
source, and `k` bytes lie behind the pointer. -/
def jsonLengthLoop (ch th : UInt8) : Nat → Cursor → Nat → Nat → Attempt Int
  | 0, _, _, _ => .ok (-1)
  | fuel+1, c, depth, k =>
      if c.left = 0 then .ok (-1)
      else do
        let b ← c.first
        if b = 92 then do
          let e ← (c.advance 1).first
          let n := if isCtrl e then 2 else 1
          jsonLengthLoop ch th fuel (c.advance n) depth (k + n)
        else if isQuote b then do
          let vlen ← getStringLength c
          if vlen ≤ 0 then .ok (-1)
          else jsonLengthLoop ch th fuel (c.advance vlen.toNat) depth (k + vlen.toNat)
        else if b = ch then jsonLengthLoop ch th fuel (c.advance 1) (depth + 1) (k + 1)
        else if b = th then
          if depth = 0 then .ok (k + 1)
          else jsonLengthLoop ch th fuel (c.advance 1) (depth - 1) (k + 1)
        else jsonLengthLoop ch th fuel (c.advance 1) depth (k + 1)

def getJsonLength (c : Cursor) : Attempt Int := do
  let ch ← c.first
  if ch = 91 then jsonLengthLoop ch 93 c.left (c.advance 1) 0 1
  else if ch = 123 then jsonLengthLoop ch 125 c.left (c.advance 1) 0 1
  else .ok 0

def valueLength (c : Cursor) : Attempt Int := do
  let ch ← c.first
  if ch = 91 ∨ ch = 123 then getJsonLength c else getStringLength c

structure Slice where
  str : Bytes
  len : Nat

/-- The loops that skip blanks and the separator `sep`: the number `i` of separators, and
where they end. -/
def skip (sep : UInt8 → Bool) : Bytes → Nat → Nat → Attempt (Nat × Cursor)
  | p, 0, i => .ok (i, ⟨p, 0⟩)
  | [], _+1, _ => .error .undefined
  | c :: p, left+1, i =>
      if isBlank c then skip sep p left i
      else if sep c then skip sep p left (i + 1)
      else .ok (i, ⟨c :: p, left + 1⟩)

/-- A piece of the text as long as a function says; there is none if the length is not positive. -/
def piece (length : Cursor → Attempt Int) (c : Cursor) : Attempt (Slice × Cursor) := do
  let n ← length c
  if n ≤ 0 then .error .failed else .ok (⟨c.p, n.toNat⟩, c.advance n.toNat)

def namedValue (c : Cursor) : Attempt ((Slice × Slice) × Cursor) := do
  let (name, c) ← piece getStringLength c
  let (i, c) ← skip (· == 58) c.p c.left 0
  if i ≠ 1 then .error .failed
  else do
    let (value, c) ← piece valueLength c
    .ok ((name, value), c)

/-- The loops that cut a container into its elements: `element` takes one, `close` is the
bracket, and there is room for `maxcount` of them. Every round takes at least one byte. The
result are the elements and the pointer where the loop ends. -/
def split (close : UInt8) (element : Cursor → Attempt (α × Cursor)) (maxcount : Nat) :
    Nat → Cursor → List α → Attempt (List α × Cursor)
  | 0, c, nv => .ok (nv, c)
  | fuel+1, c, nv =>
      if c.left = 0 then .ok (nv, c)
      else do
        let (_, c) ← skip (fun _ => false) c.p c.left 0
        let ch ← c.first
        if ch = close then .ok (nv, c.advance 1)
        else do
          let (e, c) ← element c
          let nv := nv ++ [e]
          if maxcount ≤ nv.length then .ok (nv, c)
          else do
            let (i, c) ← skip (· == 44) c.p c.left 0
            let ch ← c.first
            if i ≠ 1 ∧ ch ≠ close then .error .failed
            else split close element maxcount fuel c nv

/-- What is left of the buffer, and the number of calls of `malloc`. -/
structure Mem where
  tail : Int
  mallocs : Nat

def bufAlloc (size : Int) (m : Mem) : Attempt Mem :=
  let len := int32 (size + 3) / 4 * 4
  if m.tail < len then .error .failed else .ok { m with tail := int32 (m.tail - len) }

def Mem.malloc (malloc : Nat → Bool) (m : Mem) : Attempt Mem :=
  if malloc m.mallocs then .ok { m with mallocs := m.mallocs + 1 } else .error .failed

def control (e : UInt8) : UInt8 :=
  if e = 98 then 8 else if e = 102 then 12 else if e = 110 then 10 else if e = 114 then 13
  else if e = 116 then 9 else e

def unescape : Bytes → Nat → Attempt Bytes
  | _, 0 => .ok []
  | [], _+1 => .error .undefined
  | [c], len+1 =>
      if c = 92 then .error .undefined
      else do
        let s ← unescape [] len
        .ok (c :: s)
  | c :: e :: p, len+1 =>
      if c = 92 ∧ isCtrl e = true then do
        let s ← unescape p (len - 1)
        .ok (control e :: s)
      else do
        let s ← unescape (e :: p) len
        .ok (c :: s)

def unquote (s : Slice) : Attempt Slice := do
  let ch ← Attempt.ofOption s.str.head?
  if isQuote ch then
    if s.len < 2 then .error .failed
    else do
      let last ← Attempt.ofOption s.str[s.len - 1]?
      if last ≠ ch then .error .failed else .ok ⟨s.str.drop 1, s.len - 2⟩
  else .ok s

def bufStrdup (s : Slice) (m : Mem) : Attempt (Bytes × Mem) := do
  let s ← unquote s
  let m ← bufAlloc (s.len + 1) m
  let bytes ← unescape s.str s.len
  .ok (bytes, m)

/-- `sw_json_t` with what it points to; `none` is a NULL pointer. -/
inductive SwJson where
  | str (s : Bytes)
  | obj (members : Option (List (Bytes × SwJson)))
  | arr (values : Option (List SwJson))

def objectSize : Nat := 8
def nameValueSize : Nat := 12
def arraySize : Nat := 8
def jsonSize : Nat := 8

def decodeAll (decode : α → Mem → Attempt (β × Mem)) : List α → Mem → Attempt (List β × Mem)
  | [], m => .ok ([], m)
  | a :: rest, m => do
      let (b, m) ← decode a m
      let (bs, m) ← decodeAll decode rest m
      .ok (b :: bs, m)

def decodeMember (decode : Slice → Mem → Attempt (SwJson × Mem)) (nv : Slice × Slice) (m : Mem) :
    Attempt ((Bytes × SwJson) × Mem) := do
  let (name, m) ← bufStrdup nv.1 m
  let (value, m) ← decode nv.2 m
  .ok ((name, value), m)

def elements (close : UInt8) (element : Cursor → Attempt (α × Cursor)) (maxcount : Nat)
    (s : Slice) : Attempt (List α) := do
  let (nv, _) ← split close element maxcount s.len ⟨s.str.drop 1, s.len - 1⟩ []
  .ok nv

/-- What `decode_object` and `decode_array` have in common, behind the test of the first byte:
`least` is the least number of bytes for an element, `header` and `cell` are the sizes of the
structure and of an entry. -/
def decodeContainer (malloc : Nat → Bool) (close : UInt8) (least header cell : Nat)
    (element : Cursor → Attempt (α × Cursor)) (decode : α → Mem → Attempt (β × Mem)) (s : Slice)
    (m : Mem) : Attempt (Option (List β) × Mem) :=
  let maxcount := min 16384 (s.len / least)
  if maxcount = 0 then .ok (none, m)
  else do
    let m ← m.malloc malloc
    let nv ← elements close element maxcount s
    let m ← bufAlloc header m
    let m ← bufAlloc (nv.length * cell) m
    let (bs, m) ← decodeAll decode nv m
    .ok (some bs, m)

def decodeObject (malloc : Nat → Bool) (decode : Slice → Mem → Attempt (SwJson × Mem)) (s : Slice)
    (m : Mem) : Attempt (SwJson × Mem) := do
  let (members, m) ← decodeContainer malloc 125 4 objectSize nameValueSize namedValue
    (decodeMember decode) s m
  .ok (.obj members, m)

def decodeArray (malloc : Nat → Bool) (decode : Slice → Mem → Attempt (SwJson × Mem)) (s : Slice)
    (m : Mem) : Attempt (SwJson × Mem) := do
  let (values, m) ← decodeContainer malloc 93 2 arraySize jsonSize (piece valueLength) decode s m
  .ok (.arr values, m)

/-- A slice of a container is shorter than the container. -/
def decodeValue (malloc : Nat → Bool) : Nat → Slice → Mem → Attempt (SwJson × Mem)
  | 0, _, _ => .error .undefined
  | fuel+1, s, m => do
      let ch ← Attempt.ofOption s.str.head?
      if ch = 123 then decodeObject malloc (decodeValue malloc fuel) s m
      else if ch = 91 then decodeArray malloc (decodeValue malloc fuel) s m
      else do
        let (str, m) ← bufStrdup s m
        .ok (.str str, m)

def swJsonDecode (malloc : Nat → Bool) (text : Bytes) (size : Int) : Attempt SwJson := do
  let (_, c) ← skip (fun _ => false) (text ++ [0]) text.length 0
  let mtail := int32 (size - jsonSize)
  if mtail ≤ 0 then .error .failed
  else do
    let (json, _) ← decodeValue malloc (text.length + 1) ⟨c.p, c.left⟩ ⟨mtail, 0⟩
    .ok json

end SwApi.Json
