import SwApi.Library.Address

/-! The memory pool of `swmem.c`: blocks behind their headers in one buffer, the
headers in a doubly linked list in the order of their addresses. NULL is the address
0. A header is found at its address, apart from the bytes of the blocks; it takes 20
bytes (`filename`, `line`, `size`, `prev`, `next`), of which the name of the file and
the line only go into messages and are left out, as are the mutex and the messages.

A result `none` means that a walk along the list does not come to its end. -/
namespace SwApi.Memory
open Library Function

@[ext]
structure MemNode where
  size : Int
  prev : Nat
  next : Nat
deriving DecidableEq

/-- `sxmem_t`, with the headers and the bytes of the buffer. -/
structure Pool where
  buf : Nat
  size : Int
  align : Nat
  allocSize : Int
  maxpos : Int
  first : Nat
  tail : Nat
  list : Nat
  node : Nat → MemNode
  bytes : Nat → UInt8

def nodeBytes : Nat := 20
def poolBytes : Nat := 36
def memCheckSize : Nat := 8

def memdbgFlag : List UInt8 := [0xa5, 0xc1, 0xd8, 0x8e, 0xf1, 0xbd, 0x97, 0xec]

/-- `ALIGN_PTR`, where `align` is `xm->align-1`. -/
def alignPtr (align p : Nat) (size : Int) : Nat := alignDown align (addr (size + align + p))

def alignSize (align : Nat) (size : Int) : Nat := alignDown align (addr (size + align))

/-- `sw_mem_init_ex` in a memory with any contents. -/
def swMemInitEx (node : Nat → MemNode) (bytes : Nat → UInt8) (buf : Nat) (size : Int)
    (align : Nat) : Option Pool :=
  if buf = 0 ∨ size < poolBytes then none
  else
    let xm := addr (align - 1 + buf) / align * align
    let start := alignPtr (align - 1) xm poolBytes
    some {
      buf := start, size := int32 (buf + size - start), align, allocSize := 0, maxpos := 0
      first := 0, tail := 0, list := 0, node, bytes }

namespace Pool

def limit (xm : Pool) : Nat := addr (xm.buf + xm.size)

def user (xm : Pool) (node : Nat) : Nat := alignPtr (xm.align - 1) node nodeBytes

def nodeOf (xm : Pool) (p : Nat) : Nat := alignDown (xm.align - 1) (addr (p - nodeBytes))

end Pool

abbrev Headers := Nat → MemNode

def setPrev (h : Headers) (a v : Nat) : Headers := update h a { h a with prev := v }

def setNext (h : Headers) (a v : Nat) : Headers := update h a { h a with next := v }

def newNode (h : Headers) (a : Nat) (size : Int) : Headers := update h a ⟨size, 0, 0⟩

def insertBefore (h : Headers) (node nex : Nat) : Headers :=
  let h := setNext h node nex
  if nex ≠ 0 then
    let h := setPrev h node (h nex).prev
    let h := setPrev h nex node
    if (h node).prev ≠ 0 then setNext h (h node).prev node else h
  else setPrev h node 0

def insertAfter (h : Headers) (node pre : Nat) : Headers :=
  let h := setPrev h node pre
  if pre ≠ 0 then
    let h := setNext h node (h pre).next
    let h := setNext h pre node
    if (h node).next ≠ 0 then setPrev h (h node).next node else h
  else setNext h node 0

def removeNode (h : Headers) (node : Nat) : Headers :=
  let h := if (h node).prev ≠ 0 then setNext h (h node).prev (h node).next else h
  if (h node).next ≠ 0 then setPrev h (h node).next (h node).prev else h

/-- The loop of `malloc_old`: the gaps behind `node` and the following nodes. -/
def mallocLoop (size : Int) : Nat → Pool → Nat → Int → Option (Nat × Pool)
  | 0, _, _, _ => none
  | fuel+1, xm, node, firstlen =>
      let next := (xm.node node).next
      if next = 0 then some (0, xm)
      else
        let stop := addr (xm.user node + alignSize (xm.align - 1) (xm.node node).size)
        let len := int32 (addr (next - xm.user stop))
        -- the first gap is too small for any block: the hint moves on
        let tooSmall := firstlen ≤ (xm.align - 1 : Nat) + 8
        let xm := if tooSmall then { xm with first := node } else xm
        let firstlen := if tooSmall then len else firstlen
        if size ≤ len then
          some (xm.user stop,
            { xm with node := insertAfter (newNode xm.node stop size) stop node })
        else mallocLoop size fuel xm next firstlen

/-- `malloc_old`: a block in a gap. Every node takes room in the buffer, so the
number of its bytes is enough for the walk. -/
def mallocOld (xm : Pool) (size : Int) : Option (Nat × Pool) :=
  if xm.first = 0 then
    if xm.list = 0 then some (0, xm)
    else
      let len := int32 (addr (xm.list - xm.user xm.buf))
      if size ≤ len then
        some (xm.user xm.buf, { xm with
          list := xm.buf, first := xm.buf
          node := insertBefore (newNode xm.node xm.buf size) xm.buf xm.list })
      else mallocLoop size (xm.size.toNat + 1) xm xm.list len
  else mallocLoop size (xm.size.toNat + 1) xm xm.first 0

def writeBytes (bytes : Nat → UInt8) (p : Nat) (data : List UInt8) : Nat → UInt8 := fun a =>
  if p ≤ a ∧ a < p + data.length then data.getD (a - p) 0 else bytes a

def copyBytes (bytes : Nat → UInt8) (dst src n : Nat) : Nat → UInt8 := fun a =>
  if dst ≤ a ∧ a < dst + n then bytes (src + (a - dst)) else bytes a

/-- What every allocation ends with: the figures, and the mark behind the block. -/
def Pool.account (xm : Pool) (p : Nat) (size : Int) : Pool :=
  let pos := int32 (int32 (p - xm.buf) + size)
  { xm with
    maxpos := if xm.maxpos < pos then pos else xm.maxpos
    allocSize := int32 (xm.allocSize + (size + nodeBytes))
    bytes := writeBytes xm.bytes (addr (p + size - memCheckSize)) memdbgFlag }

def Pool.top (xm : Pool) : Nat :=
  if xm.list = 0 then xm.buf
  else alignPtr (xm.align - 1) (xm.user xm.tail) (xm.node xm.tail).size

def Pool.append (xm : Pool) (node : Nat) (size : Int) : Pool :=
  let tail := if xm.list = 0 then 0 else xm.tail
  let h := newNode xm.node node size
  { xm with
    list := if tail = 0 then node else xm.list
    node := setPrev (if tail = 0 then h else setNext h tail node) node tail
    tail := node }

def swMemAlloc (xm : Pool) (size : Int) : Option (Nat × Pool) :=
  if size < 0 then some (0, xm)
  else do
    let size := int32 (size + memCheckSize)
    let (p, xm) ← mallocOld xm size
    if p ≠ 0 then some (p, xm.account p size)
    else
      let p := xm.user xm.top
      if xm.limit < addr (p + size) then some (0, xm)
      else some (p, (xm.append xm.top size).account p size)

def Pool.find (xm : Pool) (p : Nat) : Nat := if xm.buf < p ∧ p < xm.limit then xm.nodeOf p else 0

/-- The links around a header or its size cannot be right. -/
def Pool.damaged (xm : Pool) (p node : Nat) : Bool :=
  let n := xm.node node
  n.size < 0 || xm.limit < addr (p + n.size) ||
    (xm.list < node && (n.prev < xm.list || node ≤ n.prev || (xm.node n.prev).next ≠ node)) ||
    (n.next ≠ 0 && (n.next ≤ node || xm.limit < n.next || (xm.node n.next).prev ≠ node))

def swMemFree (xm : Pool) (p : Nat) : Pool :=
  let node := xm.find p
  let freesize := if node = 0 then 0 else (xm.node node).size + nodeBytes
  if node = 0 ∨ xm.list = 0 then { xm with allocSize := int32 (xm.allocSize - freesize) }
  else if xm.damaged p node then xm
  else
    let n := xm.node node
    { xm with
      node := removeNode xm.node node
      list := if xm.list = node then n.next else xm.list
      first := if node ≤ xm.first then n.prev else xm.first
      tail := if xm.tail = node then n.prev else xm.tail
      allocSize := int32 (xm.allocSize - freesize) }

def Pool.inPlace (xm : Pool) (node : Nat) (size : Int) : Bool :=
  let n := xm.node node
  size ≤ n.size || addr (xm.user node + size) ≤ (if n.next ≠ 0 then n.next else xm.limit)

def Pool.resize (xm : Pool) (p node : Nat) (size : Int) : Pool :=
  { xm with
    node := update xm.node node { xm.node node with size }
    allocSize := int32 (xm.allocSize - (xm.node node).size + size)
    bytes := writeBytes xm.bytes (addr (p + size - memCheckSize)) memdbgFlag }

def Pool.move (xm : Pool) (p node dst : Nat) (size : Int) : Pool :=
  let n := (xm.node node).size
  let len := if node ≠ 0 ∧ n < size ∧ 0 ≤ n - memCheckSize then n - memCheckSize else size
  swMemFree { xm with bytes := copyBytes xm.bytes dst p len.toNat } p

def swMemRealloc (xm : Pool) (p : Nat) (size : Int) : Option (Nat × Pool) :=
  if p = 0 then swMemAlloc xm size
  else
    let node := xm.find p
    let checked := int32 (size + memCheckSize)
    if node ≠ 0 ∧ xm.inPlace node checked then some (p, xm.resize p node checked)
    else do
      let (dst, xm) ← swMemAlloc xm (int32 (checked - memCheckSize))
      some (dst, if dst ≠ 0 then xm.move p node dst size else xm)

def swMemReset (xm : Pool) : Pool := { xm with list := 0, first := 0, tail := 0 }

def swMemGetAllocSize (xm : Pool) : Int := xm.allocSize

def swMemGetMaxSize (xm : Pool) : Int := xm.maxpos

def swMemGetCurSize (xm : Pool) : Int :=
  if xm.tail ≠ 0 then int32 (int32 (xm.user xm.tail - xm.buf) + (xm.node xm.tail).size) else 0

end SwApi.Memory
