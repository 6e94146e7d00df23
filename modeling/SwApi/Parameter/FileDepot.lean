import SwApi.Library.Bytes
import SwApi.Library.Decimal
import SwApi.Parameter.Model

/-! The file depot of `swifiledepot.c`: the parameters of the depot as lines of a
text file, with a second copy in a `.bak` file. A file is its bytes; `none` in the
place of a file is one that cannot be opened. -/
namespace SwApi.Parameter
open Library

def swIfiledepotOpen (address : Nat) : Depot where
  address
  name := ⟨[105, 102, 105, 108, 101], by decide⟩
  type := .file
  autosave := false

/-- `on_gather_para`: the first description of the depot from `pos` on, and the
position to go on with. -/
def onGatherPara (t : Table) (d : Depot) (pos : Nat) : Option (Nat × Para) :=
  ((List.range' pos (t.pnum - pos)).find? fun i => (t.plist i).depot = some d).map
    fun i => (i + 1, t.plist i)

def gatherAll (t : Table) (d : Depot) : Nat → Nat → List Para
  | 0, _ => []
  | fuel+1, pos =>
      match onGatherPara t d pos with
      | none => []
      | some (next, p) => p :: gatherAll t d fuel next

/-- The local variables of `ifile_save_file`: the first `len` bytes of `buf`, what has
been written, and the parts of `buf` that were used, each up to the byte behind it. -/
structure Writing where
  buf : Bytes
  out : Bytes
  paracnt : Nat
  ranges : List (Nat × Nat)

def bufSize : Nat := 8192

/-- Where `strlcpy` and `snprintf` store `n` bytes and a NUL, cut off at the end of `buf`. -/
def copied (len n : Nat) : Nat × Nat := (len, len + min n (bufSize - len - 1) + 1)

def versionLine : Bytes := [35, 118, 101, 114, 115, 105, 111, 110, 58, 50, 10]   -- "#version:2\n"
def equalSign : Bytes := [32, 61, 32]
def totalTag : Bytes := [35, 116, 111, 116, 97, 108, 58]   -- "#total:"
def versionTag : Bytes := [35, 118, 101, 114, 115, 105, 111, 110, 58]   -- "#version:"

def Writing.flush (w : Writing) : Writing :=
  if 2048 ≤ w.buf.length then
    let wlen := w.buf.length - w.buf.length % 2048
    { w with
      buf := w.buf.drop wlen
      out := w.out ++ w.buf.take wlen
      ranges := w.ranges ++ [(0, w.buf.length)] }
  else w

/-- One round of the loop. The name is not cut off, so the three bytes behind it
must lie in the buffer; a value is cut off where the buffer ends. -/
def Writing.line (w : Writing) (p : Para) : Option Writing := do
  let name ← p.name
  let sign := w.buf.length + name.strlen
  if sign + 3 ≤ bufSize then
    let buf := w.buf ++ name.bytes ++ equalSign ++ (p.value.getD .empty).bytes
    let len := min buf.length (bufSize - 1)
    some (Writing.flush { w with
      buf := buf.take len ++ [10]
      paracnt := w.paracnt + 1
      ranges := w.ranges ++ copied w.buf.length name.strlen :: (sign, sign + 3) ::
        (p.value.toList.map (fun v => copied (sign + 3) v.strlen) ++ [(len, len + 1)]) })
  else none

def Writing.lines : Writing → List Para → Option Writing
  | w, [] => some w
  | w, p :: rest => do
      let w ← w.line p
      w.lines rest

/-- `ifile_save_file` with its buffer. -/
def savedFile (t : Table) (d : Depot) : Option Writing := do
  let w ← Writing.lines ⟨versionLine, [], 0, [copied 0 versionLine.length]⟩
    (gatherAll t d (t.pnum + 1) 0)
  let buf := w.buf ++ totalTag ++ decimal w.paracnt ++ [10]
  some { w with
    buf
    out := w.out ++ buf
    ranges := w.ranges ++ [copied w.buf.length (buf.length - w.buf.length), (0, buf.length)] }

def ifileSaveFile (t : Table) (d : Depot) : Option Bytes := (savedFile t d).map Writing.out

def saveAccesses (t : Table) (d : Depot) : List (Nat × Nat) :=
  (savedFile t d).elim [] Writing.ranges

/-- `ifile_save`: the file and the `.bak` file. -/
def ifileSave (t : Table) (d : Depot) : Option (Bytes × Bytes) := do
  let file ← ifileSaveFile t d
  let fileBak ← ifileSaveFile t d
  some (file, fileBak)

def fgets : Nat → Bytes → Bytes × Bytes
  | 0, input => ([], input)
  | _+1, [] => ([], [])
  | n+1, c :: input =>
      if c = 10 then ([c], input)
      else
        let (str, rest) := fgets n input
        (c :: str, rest)

def lineRoom : Nat := 4095

def isBlank (c : UInt8) : Bool := c = 32 || c = 9 || c = 13 || c = 10
def isSeparator (c : UInt8) : Bool := c = 32 || c = 58 || c = 61 || c = 9
def isLineEnd (c : UInt8) : Bool := c = 13 || c = 10 || c = 0

inductive Line where
  | ignored
  | total (n : Int)
  | version (n : Int)
  | pair (name value : CString)
deriving DecidableEq

/-- A line behind its blanks. It is `none` when the name fills the buffer: the
byte behind its end is read then. -/
def parseText (p : Bytes) (full : Bool) : Option Line :=
  if p.head? = some 35 then
    if totalTag <+: p then some (.total (atoi (p.drop 7)))
    else if versionTag <+: p then some (.version (atoi (p.drop 9)))
    else some .ignored
  else
    let name := p.takeWhile fun c => !isSeparator c && !isLineEnd c
    let rest := p.drop name.length
    if full ∧ rest = [] then none
    else
      let value := ((rest.drop 1).dropWhile isSeparator).takeWhile fun c => !isLineEnd c
      some (if name = [] then .ignored else .pair (cstring name) (cstring value))

/-- What the loop of `ifile_load_file` does with one line or piece of a line. The
bytes behind `str` in the buffer are 0. -/
def parseLine (str : Bytes) : Option Line :=
  if str.length < 2 ∨ str[0]? = some 0 ∨ str[1]? = some 0 then some .ignored
  else parseText (str.dropWhile isBlank) (str.length = lineRoom)

/-- The local variables of `ifile_load_file`; `totalcnt` is the number of `pairs`,
which are the calls of `spread`. -/
structure Reading where
  version : Int
  total : Int
  pairs : List (CString × CString)
deriving DecidableEq

def Reading.start : Reading := ⟨1, 0, []⟩

def Reading.line (r : Reading) (str : Bytes) : Option Reading := do
  match ← parseLine str with
  | .ignored => some r
  | .total n => some { r with total := n }
  | .version n => some { r with version := n }
  | .pair name value => some { r with pairs := r.pairs ++ [(name, value)] }

/-- The loop of `ifile_load_file`; every round but the last reads something. -/
def Reading.lines : Nat → Reading → Bytes → Option Reading
  | 0, r, _ => some r
  | _+1, r, [] => some r
  | fuel+1, r, input => do
      let (str, rest) := fgets lineRoom input
      let r ← r.line str
      Reading.lines fuel r rest

def Reading.all (r : Reading) (input : Bytes) : Option Reading := Reading.lines input.length r input

def Reading.valid (r : Reading) : Bool :=
  r.version = 2 && 0 < r.total && (r.pairs.length : Int) = r.total

def ifileLoadFile (file : Option Bytes) : Option Reading := Reading.start.all (file.getD [])

/-- `ifile_load`: the pairs that are spread. Those of a file that is not valid are
spread as well, before those of the `.bak` file. -/
def ifileLoad (file fileBak : Option Bytes) : Option (List (CString × CString)) := do
  let r ← ifileLoadFile file
  if r.valid then some r.pairs
  else do
    let r' ← ifileLoadFile fileBak
    some (r.pairs ++ r'.pairs)

def registerFiles (alloc : Alloc) (d : Depot) (file fileBak : Option Bytes) : Option Table := do
  let pairs ← ifileLoad file fileBak
  let (_, t) ← swParameterRegisterDepot alloc swParameterInit d true
    (pairs.map fun e => (e.1, some e.2))
  some t

end SwApi.Parameter
