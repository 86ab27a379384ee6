import CabbagePKE.Vm.PageTable

/-!
# `better_malloc` and `better_free`

The heap of one process (`kernel/process.c`): blocks start with a 16-byte
`block_head` that is stored in the heap itself and reached through the
page table; free blocks are linked through their heads. Sizes and
addresses are `uint64`.
-/

namespace CabbagePKE

open Lib

variable {T : Type} [RefTable T]

/-- What `vm_malloc` and `vm_free` use of the current process, and the
page allocator. -/
structure HeapProc (T : Type) where
  pmm : Pmm T
  pagetable : PageTable
  /-- `user_heap.heap_top` -/
  heapTop : Nat
  /-- `mapped_info[HEAP_SEGMENT].npages` -/
  npages : Nat
  firstFreeBlock : Nat

def headSize : Nat := 16

/-- The physical address of the `block_head` at `va`. Going through an
unmapped page gives an address in page `0`, where no memory is. -/
def headAt (s : HeapProc T) (va : Nat) : Outcome Nat :=
  if userVaToPa s.pagetable va < PGSIZE then .error .undefined
  else .ok (userVaToPa s.pagetable va)

def capacityOf (s : HeapProc T) (va : Nat) : Nat :=
  readLE s.pmm.mem (userVaToPa s.pagetable va) 8

def nextOf (s : HeapProc T) (va : Nat) : Nat :=
  readLE s.pmm.mem (userVaToPa s.pagetable va + 8) 8

def HeapProc.withMem (s : HeapProc T) (m : Mem) : HeapProc T :=
  { s with pmm := { s.pmm with mem := m } }

def setCapacity (s : HeapProc T) (va v : Nat) : Outcome (HeapProc T) := do
  let pa ← headAt s va
  return s.withMem (writeLE s.pmm.mem pa 8 v)

def setNext (s : HeapProc T) (va v : Nat) : Outcome (HeapProc T) := do
  let pa ← headAt s va
  return s.withMem (writeLE s.pmm.mem (pa + 8) 8 v)

/-- Make `va` follow `pre` on the free list; `pre = 0` is the list's head. -/
def linkAfter (s : HeapProc T) (pre va : Nat) : Outcome (HeapProc T) :=
  if pre = 0 then .ok { s with firstFreeBlock := va } else setNext s pre va

/-- Take a page, clear it and map it at `heap_top`; returns its address. -/
def addHeapPage (s : HeapProc T) : Outcome (Nat × HeapProc T) := do
  let (page, pmm) ← allocPage s.pmm
  if page = 0 then .error .undefined
  else
    let va := s.heapTop
    let (pmm, pt) ← userVmMap { pmm with mem := fillBytes pmm.mem page 0 PGSIZE }
      s.pagetable va PGSIZE page (protToType true true false true)
    return (va, { s with
      pmm := pmm
      pagetable := pt
      heapTop := u64 (va + PGSIZE)
      npages := (s.npages + 1) % 2 ^ 32 })

def tryAllocFreeBlock (s : HeapProc T) : Outcome (HeapProc T) :=
  if s.firstFreeBlock = 0 then do
    let (va, s) ← addHeapPage s
    let s ← setCapacity s va PGSIZE
    let s ← setNext s va 0
    return { s with firstFreeBlock := va }
  else .ok s

def alignUp (need : Nat) : Nat :=
  if need % 8 ≠ 0 then u64 (need + (8 - need % 8)) else need

/-- The search of `alloc_from_new_block` for the free block with the
largest address, with the block before it. -/
def findHighest (s : HeapProc T) : Nat → Nat → Nat → Nat → Nat → Outcome (Nat × Nat)
  | 0, _, _, _, _ => .error .diverges
  | fuel + 1, cur, pre, maxVa, maxPre =>
    if cur = 0 then .ok (maxVa, maxPre)
    else do
      let _ ← headAt s cur
      if maxVa < cur then findHighest s fuel (nextOf s cur) cur cur pre
      else findHighest s fuel (nextOf s cur) cur maxVa maxPre

/-- The `do`-`while` loop of `alloc_from_new_block`: add pages until at
most one is missing. Returns the last page added and what is missing. -/
def growHeap : Nat → HeapProc T → Nat → Outcome (Nat × Nat × HeapProc T)
  | 0, _, _ => .error .diverges
  | fuel + 1, s, need => do
      let (lastVa, s) ← addHeapPage s
      let need := if PGSIZE < need then need - PGSIZE else need
      if PGSIZE < need then growHeap fuel s need
      else return (lastVa, need, s)

/-- Every `uint64` loop over distinct addresses ends within this many
rounds. -/
def loopBound : Nat := 2 ^ 64

/-- `alloc_from_new_block` once the highest block is found: the block gets
the size asked for, and the rest of the last page added takes its place on
the free list. -/
def growBlock (s : HeapProc T) (need maxVa maxPre : Nat) : Outcome (Nat × HeapProc T) := do
  let _ ← headAt s maxVa
  let capacity := capacityOf s maxVa
  let next := nextOf s maxVa
  let s ← setNext s maxVa 0
  let s ← setCapacity s maxVa need
  let (lastVa, need, s) ← growHeap loopBound s (u64 (need + (2 ^ 64 - capacity)))
  if need ≠ 0 then
    let need := alignUp need
    let rest := u64 (lastVa + need)
    let s ← setCapacity s rest (u64 (PGSIZE + (2 ^ 64 - need)))
    let s ← setNext s rest next
    let s ← linkAfter s maxPre rest
    return (u64 (maxVa + headSize), s)
  else return (u64 (maxVa + headSize), s)

def allocFromNewBlock (s : HeapProc T) (n : Nat) : Outcome (Nat × HeapProc T) := do
  let (maxVa, maxPre) ← findHighest s loopBound s.firstFreeBlock 0 0 0
  growBlock s (u64 (n + headSize)) maxVa maxPre

/-- The search of `alloc_from_free_block` for the first block of at least
`need` bytes, with the block before it. -/
def findFit (s : HeapProc T) (need : Nat) : Nat → Nat → Nat → Outcome (Option (Nat × Nat))
  | 0, _, _ => .error .diverges
  | fuel + 1, cur, pre =>
    if cur = 0 then .ok none
    else do
      let _ ← headAt s cur
      if need ≤ capacityOf s cur then return some (cur, pre)
      else findFit s need fuel (nextOf s cur) cur

/-- `alloc_from_free_block` once a block is found: it is taken whole or
split. -/
def takeFrom (s : HeapProc T) (need cur pre : Nat) : Outcome (Nat × HeapProc T) :=
  let capacity := capacityOf s cur
  if capacity = need then do
    let s ← linkAfter s pre (nextOf s cur)
    return (u64 (cur + headSize), s)
  else do
    let need := alignUp need
    let s ← setCapacity s cur need
    let va := u64 (cur + need)
    let s ← setCapacity s va (u64 (capacity + (2 ^ 64 - need)))
    let s ← setNext s va (nextOf s cur)
    let s ← linkAfter s pre va
    return (u64 (cur + headSize), s)

def allocFromFreeBlock (s : HeapProc T) (n : Nat) : Outcome (Nat × HeapProc T) := do
  let need := u64 (n + headSize)
  match ← findFit s need loopBound s.firstFreeBlock 0 with
  | none => allocFromNewBlock s n
  | some (cur, pre) => takeFrom s need cur pre

def vmMalloc (s : HeapProc T) (n : Nat) : Outcome (Nat × HeapProc T) := do
  let s ← tryAllocFreeBlock s
  allocFromFreeBlock s n

def vmFree (s : HeapProc T) (va : Nat) : Outcome (HeapProc T) := do
  let head := u64 (va + (2 ^ 64 - headSize))
  let s ← setNext s head s.firstFreeBlock
  return { s with firstFreeBlock := head }

end CabbagePKE
