import SwApi.Url.Model

/-! What `swhttpclient.c` reads in the header of an answer. A buffer is given with the number of
its bytes that were received, or that belong to the header. -/
namespace SwApi.HttpFile
open Library

/-- A number as an `int64_t`; an overflow is undefined. -/
def int64 (x : Int) : Attempt Int := if -2^63 ≤ x ∧ x < 2^63 then .ok x else .error .undefined

def isBlank (c : UInt8) : Bool := c == 32 || c == 9

def strInt64 (s : Bytes) : Attempt Int := int64 (horner ((s.dropWhile isBlank).takeWhile isDigit))

def findCrlf : Bytes → Option Nat
  | [] => none
  | c :: p => if c = 13 ∧ p.head? = some 10 then some 0 else (findCrlf p).map (· + 1)

theorem findCrlf_line (h : 13 ∉ l) (rest : Bytes) :
    findCrlf (l ++ 13 :: 10 :: rest) = some l.length := by
  induction l with
  | nil => rfl
  | cons c l ih =>
    have hc : ¬(c = 13 ∧ (l ++ 13 :: 10 :: rest).head? = some 10) :=
      fun hc => h (hc.1 ▸ List.mem_cons_self)
    rw [List.cons_append, findCrlf, if_neg hc, ih fun hmem => h (List.mem_cons_of_mem _ hmem)]
    rfl

/-- The lines up to the first empty one; every round takes at least one byte. -/
def headerSizeLoop : Nat → Bytes → Nat
  | 0, _ => 0
  | fuel+1, p =>
      if p = [] then 0
      else
        match findCrlf p with
        | none => p.length
        | some 0 => 2
        | some (k+1) => k + 3 + headerSizeLoop fuel (p.drop (k + 3))

def getHeaderSize (received : Bytes) : Nat := headerSizeLoop received.length received

/-- `strncasecmp(p, name, strlen(name)) == 0`. -/
def beginsWith (name p : Bytes) : Bool :=
  (p.take name.length).map CString.tolower == name.map CString.tolower

def getRetCode (buf : Bytes) : Int :=
  let http : Bytes := [104, 116, 116, 112, 47]
  let p := if beginsWith http buf then (buf.drop 5).dropWhile fun c => isDigit c || c == 46 else buf
  atoi (((p.dropWhile (· == 32)).takeWhile isDigit).take 10)

/-- From a line on, of which `left` bytes belong to the header. Every round takes at least one byte.
-/
def fieldLoop (name : Bytes) (valuesize : Nat) : Nat → Bytes → Nat → Option Bytes
  | 0, _, _ => none
  | fuel+1, p, left =>
      if left = 0 then none
      else if beginsWith name p then
        let value := ((p.drop name.length).take (left - name.length)).dropWhile isBlank
        some (Url.cstr ((value.takeWhile fun c => c != 13 && c != 10).take (valuesize - 1)))
      else
        let line := (p.take left).takeWhile (· != 10)
        fieldLoop name valuesize fuel (p.drop (line.length + 1)) (left - (line.length + 1))

/-- `none` is the result NULL. -/
def getFieldValue (buf : Bytes) (size : Nat) (name : Bytes) (valuesize : Nat) : Option Bytes :=
  fieldLoop name valuesize size buf size

def contentLength : Bytes := [67, 111, 110, 116, 101, 110, 116, 45, 76, 101, 110, 103, 116, 104, 58]

def contentRange : Bytes := [67, 111, 110, 116, 101, 110, 116, 45, 82, 97, 110, 103, 101, 58]

def transferEncoding : Bytes :=
  [84, 114, 97, 110, 115, 102, 101, 114, 45, 69, 110, 99, 111, 100, 105, 110, 103, 58]

def location : Bytes := [76, 111, 99, 97, 116, 105, 111, 110, 58]

def checkContentSize (buf : Bytes) (size : Nat) : Attempt (Option Int) :=
  match getFieldValue buf size contentLength 32 with
  | none => .ok none
  | some value => (strInt64 value).map some

def parseRange (value : Bytes) : Attempt (Int × Int × Int) := do
  let v := value.dropWhile fun c => !isDigit c
  let startpos ← strInt64 v
  let v := v.dropWhile (· != 45)
  let endpos ← strInt64 v.tail
  let v := v.tail.dropWhile (· != 47)
  let filesize ← strInt64 v.tail
  .ok (startpos, endpos, filesize)

def getContentRange (buf : Bytes) (size : Nat) : Attempt (Option (Int × Int × Int)) :=
  match getFieldValue buf size contentRange 64 with
  | none => .ok none
  | some value => (parseRange value).map some

end SwApi.HttpFile
