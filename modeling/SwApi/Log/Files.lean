import Mathlib.Algebra.Order.Ring.Int
import SwApi.Library.Ledger
import SwApi.Library.Transition

/-! `swlog.c`: the two files of a file target. The FILEs are numbered as they are opened; what
`fopen`, `fprintf` and `fclose` do with them is written down. -/
namespace SwApi.Log
open Library

/-- `log_fp_state_t`; a file is in the states OPEN and CLOSE only inside of a call. -/
inductive FpState where
  | off
  | on
  | full
deriving DecidableEq

structure LogFile where
  fp : Option Nat
  size : Nat
  state : FpState
  fullcount : Nat
deriving DecidableEq

structure FileTarget where
  fp1 : LogFile
  fp2 : LogFile
  maxsize : Nat
  count : Nat
  opened : Nat
deriving DecidableEq

/-- The size from the text of the target, which is at least 128K, or 512K. -/
def maxsizeOf : Option Nat → Nat
  | none => 512 * 1024
  | some n => max n (128 * 1024)

/-- The end of `sw_log_add_target` for a file, when the file could be opened. -/
def swLogAddTarget (maxsize : Option Nat) : List (Entry Nat) × FileTarget :=
  ([.acquire 0], ⟨⟨some 0, 0, .on, 0⟩, ⟨none, 0, .off, 0⟩, maxsizeOf maxsize, 1, 1⟩)

/-- The files inside of a call: the one that may be full, the other one, the file for the line, and
what was done. -/
structure Turn where
  full : LogFile
  other : LogFile
  fp : Option Nat
  count : Nat
  opened : Nat
  entries : List (Entry Nat)
deriving DecidableEq

/-- The assignments to `fp` before files are opened or closed, of which the last one counts. -/
def chosen (fp1 fp2 : LogFile) : Option Nat :=
  if fp2.state = .on then fp2.fp
  else if fp1.state = .on then fp1.fp
  else if fp2.state = .full then fp2.fp
  else if fp1.state = .full then fp1.fp
  else none

def mark (maxsize : Nat) (f : LogFile) : LogFile :=
  if f.state = .on ∧ maxsize - 8192 ≤ f.size then { f with state := .full, fullcount := 0 } else f

namespace Turn

def openOther (opens : Bool) (s : Turn) : Turn :=
  if s.other.state = .off then
    if opens then
      { s with
        other := { s.other with fp := some s.opened, size := 0, state := .on }
        fp := some s.opened
        count := if 4 ≤ s.count + 1 then 0 else s.count + 1
        opened := s.opened + 1
        entries := s.entries ++ [.acquire s.opened] }
    else { s with other := { s.other with fp := none } }
  else s

/-- A full file is counted, and closed when the count is 8. -/
def closeFull (s : Turn) : Turn :=
  if 8 ≤ s.full.fullcount + 1 then
    { s with
      full := { s.full with fp := none, state := .off, fullcount := 0 }
      entries := s.entries ++ s.full.fp.toList.map .release }
  else { s with full := { s.full with fullcount := s.full.fullcount + 1 } }

def manage (opens : Bool) (s : Turn) : Turn := if s.full.state = .full then
    (s.openOther opens).closeFull else s

def swap (s : Turn) : Turn := { s with full := s.other, other := s.full }

end Turn

/-- `fp_size += sw_size; fp_size += size;` in 32 bits. -/
def LogFile.grow (f : LogFile) (swSize size : Int) : LogFile :=
  { f with size := ((f.size + swSize + size) % 2 ^ 32).toNat }

def FileTarget.start (t : FileTarget) : Turn :=
  ⟨mark t.maxsize t.fp1, mark t.maxsize t.fp2, chosen t.fp1 t.fp2, t.count, t.opened, []⟩

def FileTarget.turn (t : FileTarget) (opens : Bool) : Turn :=
  (((t.start.manage opens).swap).manage opens).swap

/-- `log_output` for a file target, and whether its `fopen` succeeds. -/
def FileTarget.logOutput (t : FileTarget) (swSize size : Int) (opens : Bool) :
    List (Entry Nat) × FileTarget :=
  let s := t.turn opens
  match s.fp with
  | none => (s.entries, ⟨s.full, s.other, t.maxsize, s.count, s.opened⟩)
  | some fp =>
      (s.entries ++ [.use fp],
        ⟨if s.full.fp = some fp then s.full.grow swSize size else s.full,
          if s.full.fp ≠ some fp ∧ s.other.fp = some fp then s.other.grow swSize size else s.other,
          t.maxsize, s.count, s.opened⟩)

structure Output where
  swSize : Int
  size : Int
  opens : Bool
deriving DecidableEq

def FileTarget.step (t : FileTarget) (c : Output) : Option (List (Entry Nat) × FileTarget) :=
  some (t.logOutput c.swSize c.size c.opens)

end SwApi.Log
