import SwApi.Library.Handover
import SwApi.Library.Transition

/-! `swgethostbyname.c`: callers of `sw_gethostbyname2` and their worker threads. Every statement is
a step, and so is every operation of the mutex and the signal; a wait may end at any time, so that
the state of the signal does not matter. The record of a call has the number of the call; what is
done with it is written down. -/
namespace SwApi.HostLookup
open Library

/-- `LOCK()`, the statement in it, `FreeInfo` and `UNLOCK()`, which callers and workers have in
common. -/
inductive Section where
  | test
  | create
  | aim
  | lock (m : Nat)
  | body
  | exitTest
  | exitSet
  | destroy
  | free
  | unlock
deriving DecidableEq

/-- The next statement of a thread: of a caller, the five statements that fill the record among
them, of a worker, or of the part that they have in common. -/
inductive Pc where
  | malloc
  | fill (n : Nat)
  | open
  | free
  | resume
  | wait
  | idle
  | resolve
  | store (addr : Option Nat)
  | sec (s : Section)
  | done
deriving DecidableEq

inductive Side where
  | caller
  | worker
deriving DecidableEq

def Side.other : Side → Side
  | .caller => .worker
  | .worker => .caller

/-- `_sw_info_t`, without the signal and the name. -/
structure Info where
  isExit : Bool
  ipaddr : Nat
deriving DecidableEq

/-- A call: its two threads, its record, the address that its worker has got, the variable `ipaddr`
of the caller and the result. -/
structure Request where
  caller : Pc
  worker : Pc
  info : Info
  resolved : Option Nat
  ipaddr : Nat
  ret : Option Nat
deriving DecidableEq

def Request.pc (q : Request) : Side → Pc
  | .caller => q.caller
  | .worker => q.worker

def Request.goto (q : Request) (side : Side) (pc : Pc) : Request :=
  match side with
  | .caller => { q with caller := pc }
  | .worker => { q with worker := pc }

abbrev Thread := Nat × Side

/-- `m_mute`, and the owners of the mutexes that were created. -/
structure Mutexes where
  mute : Option Nat
  owners : List (Option Thread)
deriving DecidableEq

structure Moved where
  mutexes : Mutexes
  request : Request
  entries : List (Entry Nat)

/-- The statement under the mutex: `ipaddr = info->ipaddr` or `sw_signal_give(info->signal)`. -/
def Request.body (q : Request) : Side → Request
  | .caller => { q with ipaddr := q.info.ipaddr }
  | .worker => q

def Request.finish (q : Request) : Side → Request
  | .caller => { q with caller := .done, ret := some q.ipaddr }
  | .worker => { q with worker := .done }

/-- `ok` says whether `sw_mutex_create` succeeds. -/
def Request.inSection (q : Request) (r : Nat) (side : Side) (m : Mutexes) (ok : Bool) : Section →
    Option Moved
  | .test => some ⟨m, q.goto side (.sec (if m.mute = none then .create else .aim)), []⟩
  | .create =>
      some ⟨if ok then ⟨some m.owners.length, m.owners ++ [none]⟩ else { m with mute := none },
        q.goto side (.sec .aim), []⟩
  | .aim =>
      match m.mute with
      | none => some ⟨m, q.goto side (.sec .body), []⟩
      | some i => some ⟨m, q.goto side (.sec (.lock i)), []⟩
  | .lock i =>
      if m.owners[i]? = some none then
        some ⟨{ m with owners := m.owners.set i (some (r, side)) }, q.goto side (.sec .body), []⟩
      else none
  | .body => some ⟨m, (q.body side).goto side (.sec .exitTest), [.use r]⟩
  | .exitTest =>
      some ⟨m, q.goto side (.sec (if q.info.isExit then .destroy else .exitSet)), [.use r]⟩
  | .exitSet =>
      some ⟨m, { q with info := { q.info with isExit := true } }.goto side (.sec .unlock), [.use r]⟩
  | .destroy => some ⟨m, q.goto side (.sec .free), [.use r]⟩
  | .free => some ⟨m, q.goto side (.sec .unlock), [.release r]⟩
  | .unlock =>
      match m.mute with
      | none => some ⟨m, q.finish side, []⟩
      | some i => some ⟨{ m with owners := m.owners.set i none }, q.finish side, []⟩

/-- The statements that fill the record: `memset`, the signal, `is_exit`, `ipaddr` and the name. -/
def Info.fill (info : Info) : Nat → Info
  | 0 => ⟨false, 0⟩
  | 2 => { info with isExit := false }
  | 3 => { info with ipaddr := 0 }
  | _ => info

/-- One step of a thread. `malloc`, `sw_thrd_open` or `sw_mutex_create` succeeds if `ok`, and `addr`
is what `gethostbyname_r` finds. The worker may run as soon as it was opened. -/
def Request.proceed (q : Request) (r : Nat) (side : Side) (m : Mutexes) (ok : Bool)
    (addr : Option Nat) : Option Moved :=
  match q.pc side with
  | .malloc =>
      if ok then some ⟨m, q.goto side (.fill 0), [.acquire r]⟩
      else some ⟨m, { q with caller := .done, ret := some 0 }, []⟩
  | .fill n =>
      some ⟨m, { q with info := q.info.fill n }.goto side (if n = 4 then .open else .fill (n + 1)),
        [.use r]⟩
  | .open =>
      if ok then some ⟨m, { q with caller := .resume, worker := .resolve }, []⟩
      else some ⟨m, q.goto side .free, []⟩
  | .free => some ⟨m, { q with caller := .done, ret := some 0 }, [.release r]⟩
  | .resume => some ⟨m, q.goto side .wait, []⟩
  | .wait => some ⟨m, q.goto side (.sec .test), [.use r]⟩
  | .idle => none
  | .resolve => some ⟨m, { q with resolved := addr }.goto side (.store addr), [.use r]⟩
  | .store none => some ⟨m, q.goto side (.sec .test), []⟩
  | .store (some a) =>
      some ⟨m, { q with info := { q.info with ipaddr := a } }.goto side (.sec .test), [.use r]⟩
  | .sec s => q.inSection r side m ok s
  | .done => none

structure System where
  mutexes : Mutexes
  requests : List Request
  entries : List (Entry Nat)

def System.init : System := ⟨⟨none, []⟩, [], []⟩

/-- Without a name it returns at once; `garbage` is what `malloc` finds. -/
def Request.called (named : Bool) (garbage : Info) : Request :=
  if named then ⟨.malloc, .idle, garbage, none, 0, none⟩
  else ⟨.done, .idle, garbage, none, 0, some 0⟩

inductive Action where
  | call (named : Bool) (garbage : Info)
  | run (r : Nat) (side : Side) (ok : Bool) (addr : Option Nat)

def System.step (s : System) : Action → Option (Unit × System)
  | .call named garbage => some ((), { s with requests := s.requests ++ [.called named garbage] })
  | .run r side ok addr => do
      let q ← s.requests[r]?
      let moved ← q.proceed r side s.mutexes ok addr
      some ((), ⟨moved.mutexes, s.requests.set r moved.request, s.entries ++ moved.entries⟩)

end SwApi.HostLookup
