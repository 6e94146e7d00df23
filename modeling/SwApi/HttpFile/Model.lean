import SwApi.HttpFile.Header
import SwApi.Library.Int32
import SwApi.Library.Line

/-! `swhttpfile.c`: connecting, reading and seeking. What a read stores in its buffer is its
result; `failed` stands for the result -1 and NULL, `undefined` for a copy of a negative number of
bytes and for an overflow; the positions that reading reaches are taken to fit into 63 bits. -/
namespace SwApi.HttpFile
open Library
open Url (SwUrl Net)

def maxPacketSize : Nat := 8192

/-- `swhttpfile_t`. A client is the line to its server. -/
structure SwHttpfile where
  httpclient : Option (Line UInt8)
  url : SwUrl
  filesize : Int
  currPos : Int
  startPos : Int
  endPos : Int
  bchunk : Bool
  chunksize : Int
  chunkpos : Int
  bchunkend : Bool
  bfstchunk : Bool
  recvError : Bool
  tmpDataSize : Nat
  tmpBuf : Bytes
  bShutdown : Bool

def SwHttpfile.tmp (http : SwHttpfile) : Bytes := http.tmpBuf.take http.tmpDataSize

/-- `memcpy(a + i, s, strlen(s))`. -/
def write (a : Bytes) (i : Nat) (s : Bytes) : Bytes := a.take i ++ (s ++ a.drop (i + s.length))

/-- `tmp_data_size` less `n`, and what is left moved to the front. -/
def SwHttpfile.dropTmp (http : SwHttpfile) (n : Nat) : SwHttpfile :=
  let size := http.tmpDataSize - n
  { http with
    tmpDataSize := size
    tmpBuf := if 0 < size then write http.tmpBuf 0 ((http.tmpBuf.drop n).take size)
      else http.tmpBuf }

def recvData (http : SwHttpfile) (n : Nat) : Bytes × SwHttpfile :=
  match http.httpclient with
  | none => ([], http)
  | some l => ((l.recv n).1, { http with httpclient := some (l.recv n).2 })

def recvLoop (retrycount : Nat) : Nat → SwHttpfile → Nat → Nat → Bytes × SwHttpfile
  | 0, http, _, _ => ([], http)
  | fuel+1, http, want, trycont =>
      if want = 0 then ([], http)
      else
        let (r, http) := recvData http want
        if r ≠ [] then
          let (s, http) := recvLoop retrycount fuel http (want - r.length) 0
          (r ++ s, http)
        else if retrycount < trycont then ([], http)
        else recvLoop retrycount fuel http want (trycont + 1)

/-- Before each byte at most `retrycount + 2` receives fail. -/
def recvAll (retrycount : Nat) (http : SwHttpfile) (want : Nat) : Bytes × SwHttpfile :=
  recvLoop retrycount ((want + 1) * (retrycount + 3)) http want 0

def readFileData (http : SwHttpfile) (size : Int) (retrycount : Nat) :
    Attempt (Bytes × SwHttpfile) :=
  if 0 < http.tmpDataSize ∧ size ≤ http.tmpDataSize then
    if size < 0 then .error .undefined
    else .ok (http.tmpBuf.take size.toNat, http.dropTmp size.toNat)
  else
    let (r, http') := recvAll retrycount { http with tmpDataSize := 0 }
      (size - http.tmpDataSize).toNat
    .ok (http.tmp ++ r, http')

def hexDigit (c : UInt8) : Nat :=
  if 48 ≤ c ∧ c ≤ 57 then c.toNat - 48
  else if 97 ≤ c ∧ c ≤ 102 then c.toNat - 97 + 10
  else c.toNat - 65 + 10

def hexValue (s : Bytes) : Nat := s.foldl (fun id c => id * 16 + hexDigit c) 0

def strhexInt64 (s : Bytes) : Attempt Int :=
  int64 (hexValue ((s.dropWhile isBlank).takeWhile Url.isHex))

/-- The loop over the rest of a line break, of which `i` bytes are missing. -/
def crlfLoop : Nat → SwHttpfile → Nat → Nat → Bool × SwHttpfile
  | 0, http, _, _ => (false, http)
  | fuel+1, http, i, trycont =>
      if trycont < 10 then
        let (r, http) := recvData http i
        let http := { http with tmpBuf := write http.tmpBuf 0 r }
        if i ≤ r.length then (true, http)
        else if r ≠ [] then crlfLoop fuel http (i - 1) 0
        else crlfLoop fuel http i (trycont + 1)
      else (false, http)

/-- Takes the line break behind a chunk away. It has two bytes, each of which at most 10 receives
may fail to bring. -/
def skipCrlf (http : SwHttpfile) : Bool × SwHttpfile :=
  if 2 ≤ http.tmpDataSize then (true, http.dropTmp 2)
  else
    let (ok, http) := crlfLoop 21 http (2 - http.tmpDataSize) 0
    (ok, if ok then { http with tmpDataSize := 0 } else http)

/-- The loop for one byte; the first argument is `10 - trycont`. A byte that only the last
receive brings comes too late. -/
def recvByte : Nat → SwHttpfile → Bool × SwHttpfile
  | left, http =>
      let (r, http) := recvData http 1
      let http := { http with tmpBuf := write http.tmpBuf http.tmpDataSize r }
      match left with
      | 0 => (false, http)
      | left+1 => if r.length = 1 then (true, http) else recvByte left http

def lineLoop : Nat → SwHttpfile → Bool × SwHttpfile
  | 0, http => (false, http)
  | room+1, http =>
      let (ok, http) := recvByte 10 http
      if ok then
        let n := http.tmpDataSize
        let http := { http with tmpDataSize := n + 1 }
        if 1 ≤ n ∧ http.tmpBuf[n - 1]? = some 13 ∧ http.tmpBuf[n]? = some 10 then (true, http)
        else lineLoop room http
      else (false, http)

def recvLine (http : SwHttpfile) : Attempt (Bool × SwHttpfile) :=
  match findCrlf http.tmp with
  | some i => do
      let n ← strhexInt64 http.tmpBuf
      .ok (true, { http.dropTmp (i + 2) with chunksize := int32 n })
  | none => do
      let (ok, http) := lineLoop (maxPacketSize - http.tmpDataSize) http
      if ok then do
        let n ← strhexInt64 http.tmpBuf
        .ok (true, { http with chunksize := int32 n, tmpDataSize := 0 })
      else .ok (false, http)

/-- The head of the next chunk; the answer says whether data follow it. -/
def chunkHead (http : SwHttpfile) : Attempt (Bool × SwHttpfile) := do
  let (ok, http) := if http.bfstchunk then (true, http) else skipCrlf http
  if !ok then .ok (false, { http with recvError := true })
  else do
    let (ok, http) ← recvLine { http with bfstchunk := false }
    if !ok then .ok (false, { http with recvError := true })
    else if http.chunksize = 0 then .ok (false, { http with bchunkend := true })
    else .ok (true, { http with chunkpos := 0 })

/-- At most `size` bytes of a chunk; the answer says whether all that the chunk has of them came. -/
def chunkData (http : SwHttpfile) (size : Int) : Attempt (Bool × Bytes × SwHttpfile) := do
  let nsize := min (http.chunksize - http.chunkpos) size
  let (r, http) ← readFileData http nsize 3
  let ok := decide ((r.length : Int) = nsize)
  .ok (ok, r, { http with chunkpos := http.chunkpos + r.length, recvError := !ok })

/-- Every round but the last reads at least one byte. -/
def chunkLoop (size : Int) : Nat → SwHttpfile → Bytes → Attempt (Bytes × SwHttpfile)
  | 0, _, _ => .error .undefined
  | fuel+1, http, got => do
      let (data, http) ← if http.chunksize ≤ http.chunkpos then chunkHead http else .ok (true, http)
      if !data then .ok (got, http)
      else do
        let (ok, r, http) ← chunkData http (size - got.length)
        if ok ∧ (got ++ r).length < size then chunkLoop size fuel http (got ++ r)
        else .ok (got ++ r, http)

def chunkRead (http : SwHttpfile) (size : Int) : Attempt (Bytes × SwHttpfile) :=
  if http.bchunkend || http.recvError then .ok ([], http)
  else chunkLoop size (size.toNat + 1) http []

def wholeRead (http : SwHttpfile) (size : Int) : Attempt (Bytes × SwHttpfile) :=
  if 0 < http.filesize ∧ http.filesize ≤ http.currPos then .ok ([], http)
  else do
    let nsize := if 0 < http.filesize ∧ http.filesize < http.currPos + size then
      http.filesize - http.currPos
      else size
    let (r, http) ← readFileData http nsize (if 0 < http.filesize then 0 else 3)
    .ok (r, { http with recvError := (r.length : Int) ≠ nsize })

def sectRead (http : SwHttpfile) (size : Int) : Attempt (Bytes × SwHttpfile) :=
  if http.endPos ≤ http.currPos then .ok ([], http)
  else do
    let nsize := if http.endPos < http.currPos + size then http.endPos - http.currPos else size
    let (r, http) ← readFileData http nsize 0
    .ok (r, { http with recvError := (r.length : Int) ≠ nsize })

def swHttpfileRead (http : SwHttpfile) (size : Int) : Attempt (Bytes × SwHttpfile) :=
  if size < 0 then .error .failed
  else if size = 0 ∨ http.httpclient.isNone then .ok ([], http)
  else do
    let (r, http) ←
      if http.bchunk then chunkRead http size
      else if http.endPos ≤ 0 then wholeRead http size
      else sectRead http size
    .ok (r, { http with currPos := http.currPos + r.length })

def swHttpfileTell (http : SwHttpfile) : Int := http.currPos

/-- How a request for the file is met: there is no connection, it cannot be sent, or it is sent. -/
inductive Answer where
  | refused
  | unsent (l : Line UInt8)
  | sent (l : Line UInt8)

/-- Every round receives at least one byte. -/
def headerLoop : Nat → SwHttpfile → Nat → SwHttpfile × Nat
  | 0, http, recvsize => (http, recvsize)
  | fuel+1, http, recvsize =>
      if recvsize < maxPacketSize - 1 then
        let room := maxPacketSize - recvsize
        let (r, http) := recvData http (if 2048 < room then 2048 else room - 1)
        if r = [] then (http, recvsize)
        else
          let n := recvsize + r.length
          let http := { http with tmpBuf := (write http.tmpBuf recvsize r).set n 0 }
          if (Url.strstr [13, 10, 13, 10] (Url.cstr (http.tmpBuf.drop 4))).isSome then (http, n)
          else headerLoop fuel http n
      else (http, recvsize)

def keepData (http : SwHttpfile) (headerLen recvsize : Nat) : SwHttpfile :=
  if headerLen < recvsize then
    { http with
      tmpBuf := write http.tmpBuf 0 ((http.tmpBuf.drop headerLen).take (recvsize - headerLen))
      tmpDataSize := recvsize - headerLen }
  else { http with tmpDataSize := 0 }

def sizeByLength (filesize seekPos retcode : Int) : Option Int → Attempt Int
  | none => .ok filesize
  | some contentsize => if retcode = 206 then int64 (seekPos + contentsize) else .ok contentsize

def rangeLength (startrange endrange : Int) : Attempt Int :=
  if endrange = 0 then .ok 0 else int64 (endrange - startrange + 1)

def sizeByRange (filesize endrange total : Int) : Attempt Int :=
  if 0 < total ∧ endrange ≤ total then .ok total
  else if 0 < endrange then int64 (endrange + 1)
  else .ok filesize

/-- The size of the file, as the fields of the header tell it; the answer is whether they agree. -/
def findSize (http : SwHttpfile) (seekPos retcode : Int) (headerLen : Nat) :
    Attempt (Bool × SwHttpfile) := do
  let contentsize ← checkContentSize http.tmpBuf headerLen
  let size ← sizeByLength http.filesize seekPos retcode contentsize
  match ← getContentRange http.tmpBuf headerLen with
  | none => .ok (true, { http with filesize := size })
  | some (startrange, endrange, total) => do
      let length ← rangeLength startrange endrange
      if endrange ≠ 0 ∧ retcode = 206 ∧ contentsize.isSome ∧ contentsize ≠ some length then
        .ok (false, { http with filesize := size })
      else do
        let size ← sizeByRange size endrange total
        .ok (true, { http with filesize := size })

def accept (http : SwHttpfile) (seekPos retcode : Int) (headerLen recvsize : Nat) :
    Attempt (Bool × SwHttpfile) :=
  let encoding := (getFieldValue http.tmpBuf headerLen transferEncoding 256).getD []
  if CString.casecmp encoding [99, 104, 117, 110, 107, 101, 100] = 0 then
    .ok (true, keepData { http with bchunk := true } headerLen recvsize)
  else if CString.casecmp encoding [100, 101, 110, 116, 105, 116, 121] = 0 then .ok (false, http)
  else do
    let (ok, http) ← findSize http seekPos retcode headerLen
    .ok (ok, if ok then keepData http headerLen recvsize else http)

def bcd2str : Nat → Bytes → Bytes
  | 0, _ => []
  | _+1, [] => []
  | fuel+1, c :: p =>
      if c = 37 ∧ Url.isHex (Url.peek p) = true ∧ Url.isHex (Url.peek p.tail) = true then
        .ofNat (Url.char2Hex (Url.peek p) * 16 + Url.char2Hex (Url.peek p.tail)) :: bcd2str fuel
          (p.drop 2)
      else c :: bcd2str fuel p

def redirectUrl (location : Bytes) : Bytes :=
  (Url.cstr (bcd2str location.length location)).takeWhile (· != 59)

/-- The url an answer redirects to, with the new count; `none` ends the connection. -/
def redirect (net : Net) (http : SwHttpfile) (headerLen redicnt : Nat) :
    Attempt (Option (SwUrl × Nat)) :=
  match getFieldValue http.tmpBuf headerLen location 2048 with
  | none => .ok none
  | some value =>
      match Url.swUrlParse net (redirectUrl value) with
      | .error .undefined => .error .undefined
      | .error .failed => .ok none
      | .ok rediurl =>
          let redicnt := if rediurl = http.url then redicnt + 1 else redicnt + 5
          .ok (if 20 ≤ redicnt then none else some (rediurl, redicnt))

def SwHttpfile.restart (http : SwHttpfile) : SwHttpfile :=
  { http with
    bfstchunk := true, bchunkend := false, chunkpos := 0, chunksize := 0, recvError := false }

def SwHttpfile.request (http : SwHttpfile) (client : Option (Line UInt8)) : SwHttpfile :=
  let url := if http.url.port = 0 then { http.url with port := Url.htons 80 } else http.url
  { http with bchunk := false, httpclient := client, url := url }

def recvHeader (http : SwHttpfile) : SwHttpfile × Nat :=
  headerLoop maxPacketSize http 0

/-- The part of `sw_httpfile_connect` from `HTTPFILE_CONNET_BEG` on, with the answers to its
requests. Every redirection counts. -/
def connectLoop (net : Net) (seekPos : Int) : Nat → List Answer → SwHttpfile → Nat →
    Attempt (Bool × SwHttpfile)
  | 0, _, http, _ => .ok (false, http)
  | fuel+1, answers, http, redicnt =>
      match if http.bShutdown then .refused else answers.headD .refused with
      | .refused => .ok (false, http.request none)
      | .unsent l => .ok (false, http.request (some l))
      | .sent l =>
          let (http, recvsize) := recvHeader (http.request (some l))
          let headerLen := getHeaderSize (http.tmpBuf.take recvsize)
          let retcode := getRetCode http.tmpBuf
          if recvsize = 0 ∨ headerLen = 0 ∨ recvsize < headerLen then .ok (false, http)
          else if retcode / 100 = 3 then
            match redirect net http headerLen redicnt with
            | .error e => .error e
            | .ok none => .ok (false, http)
            | .ok (some (rediurl, redicnt)) => connectLoop net seekPos fuel answers.tail
              { http with url := rediurl } redicnt
          else if 400 ≤ retcode ∨ retcode ≤ 0 then
            .ok (false, { http with tmpBuf := http.tmpBuf.set 2048 0 })
          else accept http seekPos retcode headerLen recvsize

/-- The answer is whether the result is 0. -/
def connect (net : Net) (http : SwHttpfile) (seekPos : Int) (answers : List Answer) :
    Attempt (Bool × SwHttpfile) :=
  connectLoop net seekPos 20 answers http.restart 0

/-- `httpfile_open` with the url and the positions that name and extension give. -/
def httpfileOpen (net : Net) (url : SwUrl) (startPos endPos : Int) (answers : List Answer) :
    Attempt SwHttpfile := do
  let fresh : SwHttpfile :=
    ⟨none, url, 0, 0, startPos, endPos, false, 0, 0, false, false, false, 0,
      List.replicate maxPacketSize 0, false⟩
  let (ok, http) ← connect net fresh startPos answers
  if ok then .ok { http with currPos := http.startPos } else .error .failed

/-- The position that `offset` and `origin` stand for, not before the start of the file; `none`
for another origin. -/
def seekTarget (http : SwHttpfile) (offset origin : Int) : Attempt (Option Int) := do
  if origin = 0 then .ok (some (max offset 0))
  else if origin = 1 then do
    let pos ← int64 (http.currPos + offset)
    .ok (some (max pos 0))
  else if origin = 2 then do
    let pos ← int64 (http.filesize + offset)
    .ok (some (max pos 0))
  else .ok none

/-- The answer is whether the result is 0. -/
def swHttpfileSeek (net : Net) (http : SwHttpfile) (offset origin : Int) (answers : List Answer) :
    Attempt (Bool × SwHttpfile) :=
  if http.bchunk ∨ http.filesize ≤ 0 then .ok (false, http)
  else do
    match ← seekTarget http offset origin with
    | none => .ok (false, http)
    | some pos =>
        if http.filesize ≤ pos ∨ (0 < http.endPos ∧ (pos < http.startPos ∨ http.endPos ≤ pos)) then
          .ok (true, { http with httpclient := none, currPos := pos })
        else do
          let (ok, http) ← connect net http pos answers
          .ok (ok, if ok then { http with currPos := pos } else http)

end SwApi.HttpFile
