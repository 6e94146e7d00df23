import SwApi.Library.CString
import SwApi.Library.CyclicProbe

/-! The map of `swhashmap.c`: open addressing with linear probing, deleted
slots that stay in place, and doubling when every slot is in use. A key is
fixed to the map's `key_type`, as every caller of the `void*` interface does.

Machine model: the 32-bit target, `sizeof(hashmap_element_t) = 16`. A result
`none` means that the call has no defined outcome (an index outside of the
allocated table, a remainder by zero, a signed overflow) or does not return. -/
namespace SwApi.HashMap
open Library CyclicProbe

inductive KeyType where
  | digital
  | string
deriving DecidableEq, Repr

inductive Status where
  | ok
  | omem
  | full
  | missing
  | invalidKey
deriving DecidableEq, Repr

inductive InUse where
  | idle
  | used
  | deleted
deriving DecidableEq, Repr

abbrev Value := UInt32

abbrev Key : KeyType → Type
  | .digital => UInt32
  | .string => CString

/-- The `void* key` argument; for a string map it may be NULL. -/
abbrev Arg : KeyType → Type
  | .digital => UInt32
  | .string => Option CString

structure Copy where
  block : Nat
  text : CString
deriving DecidableEq

/-- The `key` field of a slot: the number itself, or a pointer to the copy. -/
abbrev StoredKey : KeyType → Type
  | .digital => UInt32
  | .string => Option Copy

instance instDecidableEqKey : (t : KeyType) → DecidableEq (Key t)
  | .digital => inferInstanceAs (DecidableEq UInt32)
  | .string => inferInstanceAs (DecidableEq CString)

def Arg.key? : {t : KeyType} → Arg t → Option (Key t)
  | .digital, key => some key
  | .string, none => none
  | .string, some key => if key.bytes = [] then none else some key

def StoredKey.key? : {t : KeyType} → StoredKey t → Option (Key t)
  | .digital, key => some key
  | .string, copy => copy.map Copy.text

def StoredKey.null : {t : KeyType} → StoredKey t
  | .digital => (0 : UInt32)
  | .string => none

structure Slot (t : KeyType) where
  key : StoredKey t
  inUse : InUse
  hash : UInt32
  value : Value

def Slot.zero : Slot t := ⟨StoredKey.null, .idle, 0, 0⟩

/-- The comparison of the two probe loops: hash first, then the key. -/
def Slot.holds (s : Slot t) (hash : UInt32) (key : Key t) : Bool :=
  s.hash == hash && s.key.key? == some key

/-- `swhashmap_t`. `block` is the heap block that `data` points to. -/
structure Map (t : KeyType) where
  tableSize : Nat
  size : Nat
  data : List (Slot t)
  block : Nat

inductive Freed where
  | block (number : Nat)
  | value (pointer : Value)
deriving DecidableEq

/-- Allocation attempts so far, and everything handed to `free`. An attempt
that succeeds gives the block that carries the attempt's number. -/
structure Heap where
  calls : Nat
  freed : List Freed

/-- Which attempts succeed is the environment's choice. -/
abbrev Alloc := Nat → Bool

def Heap.malloc (alloc : Alloc) (w : Heap) : Option Nat × Heap :=
  (if alloc w.calls then some w.calls else none, { w with calls := w.calls + 1 })

def Heap.free (w : Heap) (p : Freed) : Heap := { w with freed := w.freed ++ [p] }

/-- `hashmap_free` of a key field; the number in a digital map is no pointer. -/
def Heap.freeKey (w : Heap) : {t : KeyType} → StoredKey t → Heap
  | .digital, _ => w
  | .string, none => w
  | .string, some copy => w.free (.block copy.block)

/-- What `hashmap_put` stores as key: the number, or a `strdup` of the text. -/
def copyKey (alloc : Alloc) : {t : KeyType} → Key t → Heap → Option (StoredKey t) × Heap
  | .digital, key, w => (some key, w)
  | .string, key, w =>
      let (block, w) := w.malloc alloc
      (block.map fun block => some ⟨block, key⟩, w)

def hashmapDigitHash (key : UInt32) : UInt32 :=
  let key := key + (key <<< 12)
  let key := key ^^^ (key >>> 22)
  let key := key + (key <<< 4)
  let key := key ^^^ (key >>> 9)
  let key := key + (key <<< 10)
  let key := key ^^^ (key >>> 2)
  let key := key + (key <<< 7)
  let key := key ^^^ (key >>> 12)
  (key >>> 3) * 2654435761

/-- The loop over the key's little-endian `unsigned short`s; a last odd byte
is paired with the terminating NUL. -/
def stringHashLoop : UInt32 → List UInt8 → UInt32 → UInt32
  | _, [], ret => ret
  | i, [low], ret => ret ^^^ (low.toUInt32 <<< (i &&& 0x0f))
  | i, low :: high :: rest, ret =>
      stringHashLoop (i + 1) rest
        (ret ^^^ ((low.toUInt32 ||| (high.toUInt32 <<< 8)) <<< (i &&& 0x0f)))

def hashmapStringHash (key : CString) : UInt32 := stringHashLoop 0 key.bytes 0

def hashOf : {t : KeyType} → Key t → UInt32
  | .digital, key => hashmapDigitHash key
  | .string, key => hashmapStringHash key

def elementSize : Nat := 16

/-- `malloc` and `memset` of a table of `n` elements: the byte count is a
32-bit product, so the block may hold fewer slots than asked for. -/
def zeroed (n : Nat) : List (Slot t) :=
  List.replicate (n * elementSize % 2^32 / elementSize) Slot.zero

/-- Map, table and lock are allocated in this order; `none` is NULL. What the error path does to a
half-made map is left out. -/
def swHashmapCreate (alloc : Alloc) (t : KeyType) (size : Int) (w : Heap) : Option (Map t) × Heap :=
  match w.malloc alloc with
  | (none, w) => (none, w)
  | (some _, w) =>
      let size := if size < 0 then 1024 else size.toNat
      match w.malloc alloc with
      | (none, w) => (none, w)
      | (some block, w) =>
          match w.malloc alloc with
          | (none, w) => (none, w)
          | (some _, w) => (some { tableSize := size, size := 0, data := zeroed size, block }, w)

def emptyVisit (m : Map t) : Visit Nat := fun curr =>
  m.data[curr]?.map fun s => if s.inUse ≠ .used then some curr else none

/-- `some none` is `MAP_FULL`. -/
def swHashmapFindEmpty (m : Map t) (hash : UInt32) : Option (Option Nat) :=
  if m.size = m.tableSize then some none
  else if m.tableSize = 0 then none
  else probe m.tableSize (hash.toNat % m.tableSize) (emptyVisit m)

abbrev Outcome (t : KeyType) := Option (Status × Map t × Heap)

/-- The part of `hashmap_put` behind its loop: fill the slot that was found. -/
def fill (alloc : Alloc) (m : Map t) (index : Nat) (hash : UInt32) (key : Key t) (value : Value)
    (w : Heap) : Outcome t := do
  let s ← m.data[index]?
  let w := if s.inUse = .used then w.freeKey s.key else w
  match copyKey alloc key w with
  | (none, w) =>
      let s := { s with value := value, key := StoredKey.null, inUse := .idle }
      some (.omem, { m with data := m.data.set index s }, w)
  | (some stored, w) =>
      let s := { key := stored, inUse := .used, hash := hash, value := value }
      some (.ok, { m with data := m.data.set index s, size := m.size + 1 }, w)

def rehashLoop (put : Map t → UInt32 → Key t → Value → Heap → Outcome t)
    (curr : List (Slot t)) : List Nat → Map t → Heap → Outcome t
  | [], m, w => some (.ok, m, w)
  | i :: rest, m, w => do
      let s ← curr[i]?
      if s.inUse = .used then
        let key ← s.key.key?
        let (status, m, w) ← put m s.hash key s.value w
        if status ≠ .ok then some (status, m, w)
        else rehashLoop put curr rest m w
      else rehashLoop put curr rest m w

def freeOld (old : Map t) (w : Heap) : Heap :=
  (old.data.foldl (fun w s => if s.inUse = .used then w.freeKey s.key else w) w).free
    (.block old.block)

/-- `sw_hashmap_rehash`, with the put it calls as a parameter. -/
def swHashmapRehash (alloc : Alloc) (put : Map t → UInt32 → Key t → Value → Heap → Outcome t)
    (m : Map t) (w : Heap) : Outcome t :=
  if 2^31 ≤ 2 * m.tableSize then none
  else
    match w.malloc alloc with
    | (none, w) => some (.omem, m, w)
    | (some block, w) => do
        let new := { tableSize := 2 * m.tableSize, size := 0,
                     data := zeroed (2 * m.tableSize), block := block }
        let (status, m', w) ← rehashLoop put m.data (List.range m.tableSize) new w
        if status ≠ .ok then some (status, m', w)
        else some (.ok, m', freeOld m w)

/-- `hashmap_put`. One unit of fuel is one turn of its `while` loop, or one
level of the recursion through the rehash. -/
def hashmapPut (alloc : Alloc) : Nat → Map t → UInt32 → Key t → Value → Heap → Outcome t
  | 0, _, _, _, _, _ => none
  | fuel+1, m, hash, key, value, w =>
      match swHashmapFindEmpty m hash with
      | none => none
      | some (some index) => fill alloc m index hash key value w
      | some none => do
          let (status, m, w) ← swHashmapRehash alloc (hashmapPut alloc fuel) m w
          if status = .omem then some (.omem, m, w)
          else hashmapPut alloc fuel m hash key value w

/-- An `int` table size doubles at most 31 times before it overflows; a put
that asks for more rounds never ends. -/
def rounds : Nat := 32

def swHashmapPut (alloc : Alloc) (m : Map t) (arg : Arg t) (value : Value) (w : Heap) : Outcome t :=
  match arg.key? with
  | none => some (.invalidKey, m, w)
  | some key => hashmapPut alloc rounds m (hashOf key) key value w

def getVisit (m : Map t) (hash : UInt32) (key : Key t) : Visit (Status × Value) := fun curr =>
  m.data[curr]?.map fun s =>
    match s.inUse with
    | .used => if s.holds hash key then some (.ok, s.value) else none
    | .idle => some (.missing, 0)
    | .deleted => none

/-- The result and, unless the key is rejected, what `*value` is set to. -/
def swHashmapGet (m : Map t) (arg : Arg t) : Option (Status × Option Value) :=
  match arg.key? with
  | none => some (.missing, none)
  | some key =>
      if m.tableSize = 0 then none
      else do
        let hash := hashOf key
        match ← probe m.tableSize (hash.toNat % m.tableSize) (getVisit m hash key) with
        | some (status, value) => some (status, some value)
        | none => some (.missing, some 0)

/-- Unlike the lookup it also breaks off at a deleted slot. -/
def removeVisit (m : Map t) (hash : UInt32) (key : Key t) : Visit (Option Nat) := fun curr =>
  m.data[curr]?.map fun s =>
    match s.inUse with
    | .used => if s.holds hash key then some (some curr) else none
    | .idle => some none
    | .deleted => some none

/-- Only a string map frees the value it takes out. -/
def Heap.freeValue (w : Heap) (t : KeyType) (value : Value) : Heap :=
  match t with
  | .digital => w
  | .string => w.free (.value value)

def swHashmapRemove (m : Map t) (arg : Arg t) (w : Heap) : Outcome t :=
  match arg.key? with
  | none => some (.missing, m, w)
  | some key =>
      if m.tableSize = 0 then none
      else do
        let hash := hashOf key
        match ← probe m.tableSize (hash.toNat % m.tableSize) (removeVisit m hash key) with
        | some (some curr) =>
            let s ← m.data[curr]?
            let gone := { s with inUse := .deleted, value := 0, key := StoredKey.null }
            some (.ok, { m with data := m.data.set curr gone, size := m.size - 1 },
              w.freeValue t s.value)
        | _ => some (.missing, m, w)

inductive Op (t : KeyType) where
  | put (key : Arg t) (value : Value)
  | get (key : Arg t)
  | remove (key : Arg t)

def step (alloc : Alloc) (s : Map t × Heap) : Op t → Option (Status × Map t × Heap)
  | .put key value => swHashmapPut alloc s.1 key value s.2
  | .get key => (swHashmapGet s.1 key).map fun r => (r.1, s)
  | .remove key => swHashmapRemove s.1 key s.2

end SwApi.HashMap
