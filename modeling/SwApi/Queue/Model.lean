import SwApi.Library.Int32
import SwApi.Library.RingBuffer
import SwApi.Os.Signal

/-! The queue of `swqueue.c` over the binary signals of `swsignal.c`: up to five
levels, each a ring of elements of one size. A call is cut into the parts that
run as one piece, which are its sections under the mutex and its operations on
a signal; the calls and the threads are both put together from these parts.

The pointers of a level are offsets into its `elements` block. A result `none`
means that the call is undefined there (an index or a copy outside of its
block) or does not get any further at that moment. Handles and buffers are not
NULL, and the allocations of the creation succeed. -/
namespace SwApi.Queue
open Library RingBuffer Os

abbrev Element (esize : Nat) := Record UInt8 esize

/-- The entries of the arrays of `sw_queue_t` that belong to one level. -/
structure Level (esize : Nat) where
  elements : List UInt8
  tsize : Nat
  read : Nat
  write : Nat
  writeSignal : Signal
  fullCover : Bool

def Level.next (l : Level esize) (p : Nat) : Nat := RingBuffer.next l.tsize esize p

def Level.contents (l : Level esize) : List (Element esize) :=
  RingBuffer.contents l.elements esize l.read l.write

def Level.isFull (l : Level esize) : Bool := l.next l.write == l.read

def Level.put (l : Level esize) (e : Element esize) : Option (Level esize) := do
  let elements ← store l.elements l.write e
  let write := l.next l.write
  let read := if l.fullCover && write == l.read then l.next l.read else l.read
  some { l with elements, write, read }

def Level.advance (l : Level esize) : Level esize := { l with read := l.next l.read }

def Level.clear (l : Level esize) : Level esize := { l with write := 0, read := 0 }

/-- `sw_queue_t`; `level_num` is the number of levels. -/
structure SwQueue (esize : Nat) where
  levels : List (Level esize)
  readSignal : Signal

/-- The body of the loop of the creation. The size of a ring is a 32-bit product. -/
def newLevel (elementSize : Nat) (qsize : Int) (fullCover : Bool) : Level elementSize :=
  let tsize := (elementSize * qsize % 2^32).toNat
  { elements := List.replicate tsize 0, tsize, read := 0, write := 0,
    writeSignal := swSignalCreate 0 1, fullCover }

def swQueueCreateWithPriority (elementSize : Nat) (config : List (Int × Bool)) :
    Option (SwQueue elementSize) :=
  if elementSize = 0 ∨ 5 < config.length then none
  else
    some {
      levels := config.map fun c => newLevel elementSize c.1 c.2
      readSignal := swSignalCreate 0 1 }

def SwQueue.onLevel (q : SwQueue esize) (i : Nat) (f : Level esize → Option (Level esize)) :
    Option (SwQueue esize) := do
  let l ← q.levels[i]?
  let l ← f l
  some { q with levels := q.levels.set i l }

/-- The argument check of `sw_queue_post_with_level`: `some none` is the answer
-1. A negative level passes the check and indexes in front of the arrays. -/
def postCheck (q : SwQueue esize) (level : Int) : Option (Option Nat) :=
  if q.levels.length ≤ level then some none
  else if level < 0 then none
  else some (some level.toNat)

/-- `sw_signal_wait(q->write_signal[level],0)`. -/
def postTry (q : SwQueue esize) (i : Nat) : Option (SwQueue esize) :=
  q.onLevel i fun l => do
    let (_, writeSignal) ← swSignalWait l.writeSignal 0
    some { l with writeSignal }

/-- The first section and the test behind it: must the poster wait for room? -/
def postTest (q : SwQueue esize) (i : Nat) : Option Bool := do
  let l ← q.levels[i]?
  some (!l.fullCover && l.isFull)

def postSleep (q : SwQueue esize) (i : Nat) : Option (SwQueue esize) :=
  q.onLevel i fun l => do
    let (_, writeSignal) ← swSignalWait l.writeSignal (-1)
    some { l with writeSignal }

def postWrite (q : SwQueue esize) (i : Nat) (e : Element esize) : Option (SwQueue esize) :=
  q.onLevel i (·.put e)

def giveRead (q : SwQueue esize) : SwQueue esize :=
  { q with readSignal := swSignalGive q.readSignal }

/-- `idx_got` with the element copied, and `is_empty`. -/
structure Taken (esize : Nat) where
  got : Option (Nat × Element esize)
  isEmpty : Bool
deriving DecidableEq

def readWait (q : SwQueue esize) (timeout : Int) : Option (Int × SwQueue esize) := do
  let (result, readSignal) ← swSignalWait q.readSignal timeout
  some (result, { q with readSignal })

def readScan (t : Taken esize) (i : Nat) :
    List (Level esize) → Option (Taken esize × List (Level esize))
  | [] => some (t, [])
  | l :: rest => do
      let (got, l) ←
        if l.read ≠ l.write ∧ t.got = none then do
          let e ← load l.elements esize l.read
          some (some (i, e), l.advance)
        else some (t.got, l)
      let t : Taken esize := ⟨got, l.read == l.write⟩
      if !t.isEmpty then some (t, l :: rest)
      else do
        let (t, rest) ← readScan t (i + 1) rest
        some (t, l :: rest)

def readTake (q : SwQueue esize) : Option (Taken esize × SwQueue esize) := do
  let (t, levels) ← readScan ⟨none, false⟩ 0 q.levels
  some (t, { q with levels })

def readRegive (q : SwQueue esize) (t : Taken esize) : SwQueue esize :=
  if t.isEmpty then q else giveRead q

def readGive (q : SwQueue esize) (t : Taken esize) : Option (SwQueue esize) :=
  match t.got with
  | none => some q
  | some (i, _) => q.onLevel i fun l => some { l with writeSignal := swSignalGive l.writeSignal }

/-- The sections of `sw_queue_clear` (no level given) and
`sw_queue_clear_with_level`. -/
def clearSection (q : SwQueue esize) : Option Int → SwQueue esize
  | none => { q with levels := q.levels.map Level.clear }
  | some level =>
      if 0 ≤ level ∧ level < q.levels.length then
        { q with levels := q.levels.modify level.toNat Level.clear }
      else q

/-- Both clears end with `sw_signal_give(q->write_signal)`. The argument is the
address of the array of handles and not a signal, so what the call does to
the write signals depends on where the allocator has put them. -/
abbrev Stray := Nat → Signal → Signal

def clearGive (q : SwQueue esize) (stray : Stray) : SwQueue esize :=
  { q with levels := q.levels.mapIdx fun i l => { l with writeSignal := stray i l.writeSignal } }

def swQueuePostWithLevel (q : SwQueue esize) (e : Element esize) (level : Int) :
    Option (Int × SwQueue esize) := do
  match ← postCheck q level with
  | none => some (-1, q)
  | some i =>
      let q ← postTry q i
      let isFull ← postTest q i
      let q ← (if isFull then postSleep q i else some q)
      let q ← postWrite q i e
      some (0, giveRead q)

/-- `sw_queue_read_timeout`; the answer is the element copied out, or -1. -/
def swQueueReadTimeout (q : SwQueue esize) (timeout : Int) :
    Option (Option (Element esize) × SwQueue esize) :=
  if q.levels = [] then some (none, q)
  else do
    let (result, q) ← readWait q timeout
    if result ≠ 0 then some (none, q)
    else do
      let (t, q) ← readTake q
      let q ← readGive (readRegive q t) t
      some (t.got.map Prod.snd, q)

def swQueueReadNowait (q : SwQueue esize) : Option (Option (Element esize) × SwQueue esize) :=
  swQueueReadTimeout q 0

def swQueueClearWithLevel (q : SwQueue esize) (level : Int) (stray : Stray) : SwQueue esize :=
  if q.levels = [] then q else clearGive (clearSection q (some level)) stray

def swQueueClear (q : SwQueue esize) (stray : Stray) : SwQueue esize :=
  if q.levels = [] then q else clearGive (clearSection q none) stray

def swQueueGetNum (q : SwQueue esize) : Int :=
  q.levels.foldl (fun num l => int32 (num + count l.tsize esize l.read l.write)) 0

def swQueueGetMax (q : SwQueue esize) : Int :=
  q.levels.foldl (fun num l => int32 (num + (l.tsize / esize : Nat) - 1)) 0

end SwApi.Queue
