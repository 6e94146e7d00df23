import SwApi.Library.CString
import SwApi.Library.Cells
import SwApi.Library.SortedSearch
import SwApi.Os.Signal

/-! The parameter table of `swparameter.c`: an array of descriptions sorted by
name, without regard to case. Every description belongs to a depot; depots are
handed in by the application, and what their callbacks answer is an argument of
the call here. Allocations come from the pool, attempt after attempt.

A result `none` means that a NULL pointer is followed. Names are not NULL, the
module is initialised, and the observers, which only get to know of a change,
are left out. -/
namespace SwApi.Parameter
open Library SortedSearch Os Function

/-- `idepot_type_t`; the smaller the type, the higher the level. -/
inductive DepotType where
  | e2prom
  | java
  | flash
  | file
deriving DecidableEq

def DepotType.toNat : DepotType → Nat
  | .e2prom => 0
  | .java => 1
  | .flash => 2
  | .file => 3

/-- A `sw_idepot_t*`: the address and the fields that do not change. -/
structure Depot where
  address : Nat
  name : CString
  type : DepotType
  autosave : Bool
deriving DecidableEq

structure Para where
  name : Option CString
  value : Option CString
  readonly : Bool
  realtime : Bool
  depot : Option Depot
deriving DecidableEq

def Para.zero : Para := ⟨none, none, false, false, none⟩

/-- `sw_parameter_t`, with the `modified` fields of the depots and the number of
allocation attempts. `plist` has 2048 slots. -/
structure Table where
  depots : List Depot
  defdepot : Option Depot
  plist : Nat → Para
  pnum : Nat
  saveauto : Bool
  signal : Signal
  modified : Depot → Bool
  allocs : Nat

def swParameterInit : Table where
  depots := []
  defdepot := none
  plist := fun _ => Para.zero
  pnum := 0
  saveauto := false
  signal := swSignalCreate 0 1
  modified := fun _ => false
  allocs := 0

def maxParaNum : Nat := 2048
def maxDepotNum : Nat := 8

abbrev Alloc := Nat → Bool

def swMemStrdup (alloc : Alloc) (t : Table) (s : CString) : Option CString × Table :=
  (if alloc t.allocs then some s else none, { t with allocs := t.allocs + 1 })

def dupValue (alloc : Alloc) (t : Table) : Option CString → Option CString × Table
  | some value => swMemStrdup alloc t value
  | none => (none, t)

def Table.setPara (t : Table) (i : Nat) (p : Para) : Table :=
  { t with plist := update t.plist i p }

def Table.compare (t : Table) (name : CString) (k : Nat) : Option Int :=
  (t.plist k).name.map (CString.strcasecmp name)

/-- `some none` is -1. -/
def swParameterFind (t : Table) (name : CString) : Option (Option Nat) :=
  if t.pnum = 0 then some none
  else do
    match ← bsearch (t.compare name) t.pnum with
    | .found mid => some (some mid)
    | .missing _ _ => some none

def Table.insertAt (t : Table) (p : Nat) (tmp : Para) : Table :=
  { t with plist := update (memmove t.plist (p + 1) p (t.pnum - 1 - p)) p tmp }

def insertQsort (t : Table) : Option Table :=
  if t.pnum ≤ 1 then some t
  else do
    let maxpos := t.pnum - 1
    let tmp := t.plist maxpos
    let name ← tmp.name
    match ← bsearch (t.compare name) maxpos with
    | .found _ => some t
    | .missing mid i =>
        if 0 < i then do
          let p ← scanUp (t.compare name) (maxpos - mid) mid
          some (if p < maxpos then t.insertAt p tmp else t)
        else do
          let p ← scanDown (t.compare name) mid
          some (t.insertAt p tmp)

/-- The end of every insertion: slot `pnum` is filled, counted and sorted in. -/
def Table.append (t : Table) (p : Para) : Option Table :=
  insertQsort { t with plist := update t.plist t.pnum p, pnum := t.pnum + 1 }

def isJava (depot : Option Depot) : Option Bool := depot.map fun d => d.type == .java

/-- A read-only parameter may only get its first value, and not in a JAVA depot. -/
def writeProtected (p : Para) : Option Bool :=
  if p.readonly then do
    let java ← isJava p.depot
    some (java || p.value.isSome)
  else some false

/-- The depot asked for is another one and of no higher level. -/
def notRaised (p : Para) : Option Depot → Option Bool
  | none => some false
  | some d =>
      if p.depot = some d then some false
      else do
        let own ← p.depot
        some (own.type.toNat ≤ d.type.toNat)

/-- A JAVA parameter in real time is only handed on to its depot. -/
def handedOn (p : Para) (isLoad : Bool) : Option Bool :=
  if isLoad then some false
  else do
    let java ← isJava p.depot
    some (java && p.realtime)

/-- The value field after `value` is stored; a text that is not longer goes into
the old one's place. -/
def storeValue (alloc : Alloc) (t : Table) (old : Option CString) (value : CString) :
    Option CString × Table :=
  match old with
  | none => swMemStrdup alloc t value
  | some v =>
      if v = value then (some v, t)
      else if value.strlen ≤ v.strlen then (some value, t)
      else swMemStrdup alloc t value

def Table.touch (t : Table) (depot : Option Depot) : Option Table := do
  let d ← depot
  let t := { t with modified := update t.modified d true }
  some (if d.autosave then { t with saveauto := true, signal := swSignalGive t.signal } else t)

def setFound (alloc : Alloc) (t : Table) (i : Nat) (value : Option CString)
    (depot : Option Depot) (isLoad onlyDefault : Bool) : Option (Bool × Table) :=
  let p := t.plist i
  match value with
  | none => some (false, t)
  | some value => do
      let locked ← writeProtected p
      if locked then some (false, t)
      else if onlyDefault && (depot == p.depot || depot == none) then some (false, t)
      else do
        let lower ← notRaised p depot
        if lower then some (false, t)
        else do
          let java ← handedOn p isLoad
          if java then some (true, t)
          else if p.value == some value && (depot == none || depot == p.depot) then some (true, t)
          else do
            let (v, t) := storeValue alloc t p.value value
            let p := { p with value := v, depot := depot.or p.depot }
            if isLoad then do
              let java ← isJava p.depot
              some (true, t.setPara i { p with realtime := java || p.realtime })
            else do
              let t ← (t.setPara i p).touch p.depot
              some (true, t)

section
variable (alloc : Alloc) (t : Table) (name : CString)

/-- The branch for a new name. The field `realtime` of the slot keeps what it
had unless the depot is a JAVA one. -/
def setNew (value : Option CString)
    (depot : Option Depot) (isLoad : Bool) : Option (Bool × Table) :=
  if t.pnum < maxParaNum ∧ name.strlen < 256 then do
    let (n, t) := swMemStrdup alloc t name
    let (v, t) := dupValue alloc t value
    let d := depot.or t.defdepot
    let t ← (if isLoad then some t else t.touch d)
    let java ← isJava d
    let t ← t.append ⟨n, v, false, java || (t.plist t.pnum).realtime, d⟩
    some (true, t)
  else some (false, t)

def swParameterSetWithDepot (value : Option CString)
    (depot : Option Depot) (isLoad onlyDefault : Bool) : Option (Bool × Table) := do
  match ← swParameterFind t name with
  | some i => setFound alloc t i value depot isLoad onlyDefault
  | none => setNew alloc t name value depot isLoad

def swParameterSet (value : Option CString) :
    Option (Bool × Table) :=
  swParameterSetWithDepot alloc t name value none false false

def swParameterSetDefault (value : Option CString)
    (depot : Option Depot) : Option (Bool × Table) :=
  swParameterSetWithDepot alloc t name value depot true true

def depotFindByname (t : Table) (name : Option CString) : Option Depot :=
  match name with
  | none => none
  | some name => t.depots.find? fun d => CString.strcasecmp d.name name == 0

def swParameterAdd (value depotname : Option CString) :
    Option (Bool × Table) :=
  match depotFindByname t depotname with
  | none => some (false, t)
  | some d => do
      let (_, t) ← swParameterSetWithDepot alloc t name value (some d) false false
      some (true, t)

def setAll (alloc : Alloc) (depot : Option Depot) (isLoad : Bool) :
    Table → List (CString × Option CString) → Option Table
  | t, [] => some t
  | t, (name, value) :: rest => do
      let (_, t) ← swParameterSetWithDepot alloc t name value depot isLoad false
      setAll alloc depot isLoad t rest

/-- The `load` of a depot with `on_spread_para`, pair after pair. -/
def spreadAll (alloc : Alloc) (d : Depot) : Table → List (CString × Option CString) →
    Option Table :=
  setAll alloc (some d) true

/-- `sw_parameter_register_depot` of a depot that loads the pairs `loaded`. -/
def swParameterRegisterDepot (alloc : Alloc) (t : Table) (d : Depot) (isdefault : Bool)
    (loaded : List (CString × Option CString)) : Option (Bool × Table) :=
  if d ∈ t.depots then some (true, t)
  else if maxDepotNum ≤ t.depots.length then some (false, t)
  else do
    let defdepot := if isdefault || t.defdepot == none then some d else t.defdepot
    let t ← spreadAll alloc d { t with depots := t.depots ++ [d], defdepot } loaded
    some (true, t)

structure Reply where
  ok : Bool
  text : CString

structure Buffer where
  present : Bool
  size : Int

def Buffer.strlcpy (b : Buffer) (s : CString) : Option CString :=
  if b.present ∧ 0 < b.size then some (s.take (b.size.toNat - 1)) else none

/-- The value field after a reply of the depot; an empty text does not become
the value of a read-only parameter. -/
def keepReply (alloc : Alloc) (t : Table) (readonly : Bool) (text : CString) :
    Option CString × Table :=
  if !readonly || text != CString.empty then swMemStrdup alloc t text else (none, t)

def getAt (alloc : Alloc) (t : Table) (i : Nat) (b : Buffer) (reply : Reply) :
    Option (Bool × Option CString × Table) := do
  let p := t.plist i
  let java ← isJava p.depot
  if java && p.realtime && !p.readonly then
    some (reply.ok, b.strlcpy reply.text, t.setPara i { p with value := none })
  else
    match p.value with
    | some v => some (true, b.strlcpy v, t)
    | none =>
        if reply.ok then
          let (v, t) := keepReply alloc t p.readonly reply.text
          some (true, b.strlcpy reply.text, t.setPara i { p with value := v })
        else some (true, b.strlcpy .empty, t)

/-- `sw_parameter_get`: the result, the text in the buffer and the table. A name
that is missing is looked up in the default depot if that is a JAVA one. -/
def swParameterGet (b : Buffer) (reply : Reply) :
    Option (Bool × Option CString × Table) := do
  match ← swParameterFind t name with
  | some i => getAt alloc t i b reply
  | none => do
      let java ← isJava t.defdepot
      if java && t.pnum < maxParaNum then do
        let (n, t) := swMemStrdup alloc t name
        let t ← t.append ⟨n, none, false, true, t.defdepot⟩
        let i ← (← swParameterFind t name)
        getAt alloc t i b reply
      else some (false, b.strlcpy .empty, t)

def swParameterSetRealtime (realtime : Bool) :
    Option (Bool × Table) := do
  match ← swParameterFind t name with
  | some i => some (true, t.setPara i { t.plist i with realtime })
  | none =>
      if t.pnum < maxParaNum then do
        let java ← isJava t.defdepot
        if java then do
          let (n, t) := swMemStrdup alloc t name
          let t ← t.append ⟨n, none, false, realtime, t.defdepot⟩
          some (true, t)
        else some (false, t)
      else some (false, t)

def fillDefault (alloc : Alloc) (t : Table) (v : Option CString) (default : CString) :
    Option CString × Table :=
  if v = none ∨ v = some CString.empty then
    if default = CString.empty then (none, t) else swMemStrdup alloc t default
  else (v, t)

def keptValue (alloc : Alloc) (t : Table) (d : Depot) (v : Option CString) (default : CString) :
    Option CString × Table :=
  if d.type = .file then fillDefault alloc t v default else (v, t)

def movedValue (alloc : Alloc) (t : Table) (d : Depot) (v : Option CString)
    (default reply : CString) : Option CString × Table :=
  match d.type with
  | .java => if reply = CString.empty then (v, t) else swMemStrdup alloc t reply
  | .file => fillDefault alloc t v default
  | _ => (v, t)

def firstValue (alloc : Alloc) (t : Table) (d : Depot) (readonly : Bool)
    (default reply : CString) : Option CString × Table :=
  match d.type with
  | .java =>
      if reply = CString.empty then
        if readonly then (none, t) else swMemStrdup alloc t default
      else swMemStrdup alloc t reply
  | .file => if default = CString.empty then (none, t) else swMemStrdup alloc t default
  | _ => (none, t)

/-- `sw_parameter_update_with_depot`, name and depot given; `reply` is the text
that the `get` of a JAVA depot leaves. -/
def swParameterUpdateWithDepot (defaultvalue : Option CString) (readonly realtime : Bool)
    (depot : Option Depot) (reply : CString) : Option (Bool × Table) :=
  match defaultvalue, depot with
  | some default, some d =>
      if name = CString.empty then some (false, t)
      else do
        match ← swParameterFind t name with
        | some i =>
            let p := { t.plist i with readonly, realtime }
            if p.depot = some d then
              let (v, t) := keptValue alloc t d p.value default
              some (false, t.setPara i { p with value := v })
            else
              let (v, t) := movedValue alloc t d p.value default reply
              some (true, t.setPara i { p with value := v, depot := some d })
        | none =>
            if t.pnum < maxParaNum ∧ name.strlen < 256 then do
              let (n, t) := swMemStrdup alloc t name
              let (v, t) := firstValue alloc t d readonly default reply
              let t ← t.append ⟨n, v, readonly, realtime, some d⟩
              some (false, t)
            else some (false, t)
  | _, _ => some (false, t)

end

def swParameterDelete (t : Table) (name : CString) : Option (Bool × Table) := do
  match ← swParameterFind t name with
  | none => some (false, t)
  | some i =>
      let p := t.plist i
      if p.readonly then some (false, t)
      else do
        let d ← p.depot
        if d.type = .java then some (false, t)
        else
          let t := { t with modified := update t.modified d true }
          some (true, { t with
            plist := if i + 1 < t.pnum then memmove t.plist i (i + 1) (t.pnum - i - 1) else t.plist
            pnum := t.pnum - 1 })

/-- The loop of `sw_parameter_delete_all`: `left` descriptions from `i` on, `j`
kept so far. -/
def keepLoop (keep : Para → Bool) : Nat → Nat → Nat → (Nat → Para) → Nat × (Nat → Para)
  | 0, _, j, plist => (j, plist)
  | left+1, i, j, plist =>
      if keep (plist i) then
        keepLoop keep left (i + 1) (j + 1)
          (if j ≠ i then update (memmove plist j i 1) i Para.zero else plist)
      else keepLoop keep left (i + 1) j (update plist i Para.zero)

def swParameterDeleteAll (t : Table) : Option Table := do
  let (pnum, plist) := keepLoop (fun p => p.readonly || p.depot != t.defdepot) t.pnum 0 0 t.plist
  let d ← t.defdepot
  some { t with plist, pnum, modified := update t.modified d true }

inductive Op where
  | register (d : Depot) (isdefault : Bool) (loaded : List (CString × Option CString))
  | set (name : CString) (value : Option CString)
  | add (name : CString) (value depotname : Option CString)
  | setDefault (name : CString) (value : Option CString) (depot : Option Depot)
  | updateWithDepot (name : CString) (defaultvalue : Option CString) (readonly realtime : Bool)
      (depot : Option Depot) (reply : CString)
  | setRealtime (name : CString) (realtime : Bool)
  | get (name : CString) (b : Buffer) (reply : Reply)
  | delete (name : CString)
  | deleteAll

/-- The answer of a `get` is its result; the text is left out here. -/
def perform (alloc : Alloc) (t : Table) : Op → Option (Bool × Table)
  | .register d isdefault loaded => swParameterRegisterDepot alloc t d isdefault loaded
  | .set name value => swParameterSet alloc t name value
  | .add name value depotname => swParameterAdd alloc t name value depotname
  | .setDefault name value depot => swParameterSetDefault alloc t name value depot
  | .updateWithDepot name defaultvalue readonly realtime depot reply =>
      swParameterUpdateWithDepot alloc t name defaultvalue readonly realtime depot reply
  | .setRealtime name realtime => swParameterSetRealtime alloc t name realtime
  | .get name b reply => (swParameterGet alloc t name b reply).map fun r => (r.1, r.2.2)
  | .delete name => swParameterDelete t name
  | .deleteAll => (swParameterDeleteAll t).map fun t => (true, t)

end SwApi.Parameter
