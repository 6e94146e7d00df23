import SwApi.Parameter.FileDepot

/-! The calls of `swparameter.c` that come down to `sw_parameter_set_with_depot` for
each of several parameters, and the refresh of the JAVA parameters. -/
namespace SwApi.Parameter
open Library

/-- A row of a group: its name and its value. A comment, an empty row and a row without a
separator behind the name are passed over; for the last the source reads behind the end of
the row, but does not use what it reads. -/
def groupRow (line : Bytes) : Option (CString × CString) :=
  let name := line.takeWhile fun c => !isSeparator c
  let behind := line.drop name.length
  if line.head? = some 35 ∨ name = [] ∨ behind = [] then none
  else some (cstring name, cstring ((behind.drop 1).dropWhile isSeparator))

def groupSet (alloc : Alloc) (t : Table) (onlyDefault : Bool) (name value : CString) :
    Option (Bool × Table) :=
  if onlyDefault then swParameterSetWithDepot alloc t name (some value) t.defdepot true true
  else swParameterSet alloc t name (some value)

/-- The loop of `group_parameter_update`: `text` is the string from `p` on, and `left` bytes
of it lie before `buf + strsize`. A row may reach behind that end. Every round takes at least
one byte. -/
def groupLoop (alloc : Alloc) (onlyDefault : Bool) :
    Nat → Bytes → Nat → Nat → Table → Option (Nat × Table)
  | 0, _, _, num, t => some (num, t)
  | fuel+1, text, left, num, t =>
      if left = 0 then some (num, t)
      else
        let line := (text.dropWhile isBlank).takeWhile fun c => !isLineEnd c
        let taken := (text.takeWhile isBlank).length + line.length + 1
        match groupRow line with
        | none => groupLoop alloc onlyDefault fuel (text.drop taken) (left - taken) num t
        | some (name, value) =>
            if !alloc t.allocs then some (num, { t with allocs := t.allocs + 1 })
            else if !alloc (t.allocs + 1) then some (num, { t with allocs := t.allocs + 2 })
            else do
              let (_, t) ← groupSet alloc { t with allocs := t.allocs + 2 } onlyDefault name value
              groupLoop alloc onlyDefault fuel (text.drop taken) (left - taken) (num + 1) t

def groupParameterUpdate (alloc : Alloc) (t : Table) (buf : CString) (size : Int)
    (onlyDefault : Bool) : Option (Bool × Table) := do
  let strsize := (min size buf.strlen).toNat
  let (num, t) ← groupLoop alloc onlyDefault strsize buf.bytes strsize 0 t
  some (0 < num, t)

def swParameterSetGroup (alloc : Alloc) (t : Table) (buf : CString) (size : Int) :
    Option (Bool × Table) :=
  groupParameterUpdate alloc t buf size false

def swParameterSetGroupDefault (alloc : Alloc) (t : Table) (buf : CString) (size : Int) :
    Option (Bool × Table) :=
  groupParameterUpdate alloc t buf size true

def sprintfInt (value : Int) : CString :=
  cstring (if value < 0 then 45 :: decimal value.natAbs else decimal value.natAbs)

def swParameterSetInt (alloc : Alloc) (t : Table) (name : CString) (value : Int) :
    Option (Bool × Table) :=
  swParameterSet alloc t name (some (sprintfInt value))

def updateAll (alloc : Alloc) : Table → List (CString × Option CString) → Option Table :=
  setAll alloc none false

/-- `sw_parameter_updatefrom_depot` of a depot that loads the pairs `loaded`, or of NULL. -/
def swParameterUpdatefromDepot (alloc : Alloc) (t : Table)
    (loaded : Option (List (CString × Option CString))) : Option (Bool × Table) :=
  match loaded with
  | none => some (false, t)
  | some loaded => do
      let t ← updateAll alloc t loaded
      some (true, t)

def refreshValue (alloc : Alloc) (t : Table) (old : Option CString) (text : CString) :
    Option CString × Table :=
  if text = CString.empty then (none, t)
  else if old = some text then (old, t)
  else swMemStrdup alloc t text

/-- The loop of `sw_parameter_refresh` over `left` descriptions from `i` on; `reply` are the
texts that the depots leave. -/
def refreshLoop (alloc : Alloc) (reply : Nat → CString) : Nat → Nat → Table → Option Table
  | 0, _, t => some t
  | left+1, i, t => do
      let p := t.plist i
      let java ← isJava p.depot
      if java && (p.readonly || !p.realtime) then
        let (v, t) := refreshValue alloc t p.value (reply i)
        refreshLoop alloc reply left (i + 1) (t.setPara i { p with value := v })
      else refreshLoop alloc reply left (i + 1) t

def swParameterRefresh (alloc : Alloc) (t : Table) (reply : Nat → CString) : Option Table :=
  refreshLoop alloc reply t.pnum 0 t

/-- The calls that neither set the read-only flag nor take a depot away. -/
inductive Call where
  | set (name : CString) (value : Option CString)
  | setInt (name : CString) (value : Int)
  | setGroup (buf : CString) (size : Int)
  | setGroupDefault (buf : CString) (size : Int)
  | setDefault (name : CString) (value : Option CString) (depot : Option Depot)
  | add (name : CString) (value depotname : Option CString)
  | delete (name : CString)
  | deleteAll
  | register (d : Depot) (isdefault : Bool) (loaded : List (CString × Option CString))
  | updatefrom (loaded : Option (List (CString × Option CString)))
  | refresh (reply : Nat → CString)
  | setRealtime (name : CString) (realtime : Bool)
  | get (name : CString) (b : Buffer) (reply : Reply)

def call (alloc : Alloc) (t : Table) : Call → Option (Bool × Table)
  | .set name value => swParameterSet alloc t name value
  | .setInt name value => swParameterSetInt alloc t name value
  | .setGroup buf size => swParameterSetGroup alloc t buf size
  | .setGroupDefault buf size => swParameterSetGroupDefault alloc t buf size
  | .setDefault name value depot => swParameterSetDefault alloc t name value depot
  | .add name value depotname => swParameterAdd alloc t name value depotname
  | .delete name => swParameterDelete t name
  | .deleteAll => (swParameterDeleteAll t).map fun t => (true, t)
  | .register d isdefault loaded => swParameterRegisterDepot alloc t d isdefault loaded
  | .updatefrom loaded => swParameterUpdatefromDepot alloc t loaded
  | .refresh reply => (swParameterRefresh alloc t reply).map fun t => (true, t)
  | .setRealtime name realtime => swParameterSetRealtime alloc t name realtime
  | .get name b reply => (swParameterGet alloc t name b reply).map fun r => (r.1, r.2.2)

def callAll (alloc : Alloc) : Table → List Call → Option Table
  | t, [] => some t
  | t, c :: rest => do
      let (_, t) ← call alloc t c
      callAll alloc t rest

end SwApi.Parameter
