import CabbagePKE.Vm.PageTable

/-!
# Address spaces of user processes

The memory side of `kernel/process.c`, `kernel/elf.c`, `kernel/strap.c` and of
the page system calls: how a process gets its address space, passes it on,
replaces it, grows and shrinks its heap, and how a store page fault is served.
Regions and page tables are held as values; the contents of trapframes and of the
kernel's own pages are left out.
-/

namespace CabbagePKE

open Lib Function

variable {T : Type} [RefTable T]

inductive SegType
  | stack
  | context
  | system
  | heap
  | code
  | data
  deriving DecidableEq, Repr

structure MappedRegion where
  va : Nat
  npages : Nat
  segType : SegType
  deriving DecidableEq, Repr

def MappedRegion.zero : MappedRegion := ⟨0, 0, .stack⟩

structure Space where
  pagetable : PageTable
  /-- the page of the trapframe -/
  trapframe : Nat
  mappedInfo : Nat → MappedRegion
  totalMappedRegion : Nat
  heapTop : Nat
  heapBottom : Nat
  /-- `free_pages_address[0 .. free_pages_count)`, the last one first -/
  freePages : List Nat

def maxRegions : Nat := 256

def trapframeSize : Nat := 280

def MAX_HEAP_PAGES : Nat := 32

def memset (s : Pmm T) (p n : Nat) : Outcome (Pmm T) :=
  if p = 0 then .error .undefined else .ok { s with mem := fillBytes s.mem p 0 n }

def memcpy (s : Pmm T) (dst src n : Nat) : Outcome (Pmm T) :=
  if dst = 0 ∨ src = 0 then .error .undefined
  else .ok { s with mem := copyBytes s.mem dst s.mem src n }

def addRef (s : Pmm T) (pa : Nat) : Outcome (Pmm T) := do
  let refs ← RefTable.insert s.refs pa
  return { s with refs := refs }

def PageTable.invalidate (pt : PageTable) (vpn : Nat) : PageTable :=
  pt.set vpn { pt.pte vpn with v := false }

/-! ## A new address space -/

/-- The regions `alloc_process` and `exec_clean` register. -/
def initialRegions (trapframe trapSec : Nat) : Nat → MappedRegion
  | 0 => ⟨USER_STACK_TOP - PGSIZE, 1, .stack⟩
  | 1 => ⟨trapframe, 1, .context⟩
  | 2 => ⟨trapSec, 1, .system⟩
  | 3 => ⟨USER_FREE_ADDRESS_START, 0, .heap⟩
  | _ => .zero

/-- The second halves of `alloc_process` and `exec_clean`: map the stack,
the trapframe and the trap vector, and start an empty heap. -/
def initSpace (s : Pmm T) (trapSec : Nat) (pt : PageTable) (trapframe userStack : Nat) :
    Outcome (Pmm T × Space) := do
  let (s, pt) ← userVmMap s pt (USER_STACK_TOP - PGSIZE) PGSIZE userStack
    (protToType true true false true)
  let (s, pt) ← userVmMap s pt trapframe PGSIZE trapframe (protToType true true false false)
  let (s, pt) ← userVmMap s pt trapSec PGSIZE trapSec (protToType true false true false)
  return (s, {
    pagetable := pt
    trapframe := trapframe
    mappedInfo := initialRegions trapframe trapSec
    totalMappedRegion := 4
    heapTop := USER_FREE_ADDRESS_START
    heapBottom := USER_FREE_ADDRESS_START
    freePages := [] })

/-- `alloc_process`, once a slot is found: pages for the trapframe, the
page directory, the kernel stack, the user stack, the regions and (last)
the open files. -/
def allocProcessSpace (s : Pmm T) (trapSec : Nat) : Outcome (Pmm T × Space) := do
  let (trapframe, s) ← allocPage s
  let s ← memset s trapframe trapframeSize
  let (dir, s) ← allocPage s
  let s ← memset s dir PGSIZE
  let (_, s) ← allocPage s
  let (userStack, s) ← allocPage s
  let (info, s) ← allocPage s
  let s ← memset s info PGSIZE
  let (s, c) ← initSpace s trapSec (.empty dir) trapframe userStack
  let (pfiles, s) ← allocPage s
  if pfiles = 0 then .error .undefined
  else return (s, c)

/-! ## Loading a program -/

structure ElfProgHeader where
  /-- `type == ELF_PROG_LOAD` -/
  isLoad : Bool
  flags : Nat
  vaddr : Nat
  filesz : Nat
  memsz : Nat
  /-- the file from `off` on -/
  content : Mem
  /-- how many of the `memsz` bytes could be read -/
  got : Nat

def segmentAt (va flags : Nat) : ElfProgHeader :=
  { isLoad := true, flags := flags, vaddr := va, filesz := 16, memsz := 16
    content := fun _ => 0, got := 16 }

def SEGMENT_EXECUTABLE : Nat := 1
def SEGMENT_WRITABLE : Nat := 2
def SEGMENT_READABLE : Nat := 4

def elfAllocMb (s : Pmm T) (pt : PageTable) (va size : Nat) :
    Outcome (Nat × Pmm T × PageTable) :=
  if PGSIZE ≤ size then .error (.assertion "size < PGSIZE")
  else do
    let (pa, s) ← allocPage s
    if pa = 0 then .error (.panic "uvmalloc mem alloc falied\n" [])
    else
      let s ← memset s pa PGSIZE
      let (s, pt) ← userVmMap s pt va PGSIZE pa (protToType true true true true)
      return (pa, s, pt)

def segTypeOf (flags : Nat) : Option SegType :=
  if flags = SEGMENT_READABLE + SEGMENT_EXECUTABLE then some .code
  else if flags = SEGMENT_READABLE + SEGMENT_WRITABLE then some .data
  else none

/-- Record a region of one page in the first entry without an address. -/
def recordRegion (c : Space) (va : Nat) (segType : SegType) : Outcome Space :=
  match (List.range maxRegions).find? (fun j => (c.mappedInfo j).va = 0) with
  | none => .error .undefined
  | some j => .ok { c with
      mappedInfo := update c.mappedInfo j ⟨va, 1, segType⟩
      totalMappedRegion := c.totalMappedRegion + 1 }

/-- The body of the loop of `elf_load`; an error of the loader is the panic
of `load_bincode_from_host_elf`. -/
def loadSegment (s : Pmm T) (c : Space) (ph : ElfProgHeader) : Outcome (Pmm T × Space) :=
  if !ph.isLoad then .ok (s, c)
  else if ph.memsz < ph.filesz ∨ u64 (ph.vaddr + ph.memsz) < ph.vaddr then
    .error (.panic "Fail on loading elf.\n" [])
  else do
    let (dest, s, pt) ← elfAllocMb s c.pagetable ph.vaddr ph.memsz
    if ph.got ≠ ph.memsz then .error (.panic "Fail on loading elf.\n" [])
    else
      let s := { s with mem := copyBytes s.mem dest ph.content 0 ph.memsz }
      match segTypeOf ph.flags with
      | none =>
        .error (.panic "unknown program segment encountered, segment flag:%d.\n" [ph.flags])
      | some segType => do
          let c ← recordRegion { c with pagetable := pt } ph.vaddr segType
          return (s, c)

def elfLoad (s : Pmm T) (c : Space) : List ElfProgHeader → Outcome (Pmm T × Space)
  | [] => .ok (s, c)
  | ph :: phs => do
      let (s, c) ← loadSegment s c ph
      elfLoad s c phs

/-! ## Fork -/

/-- `cow_vm_map`'s entry: read-only, with the copy-on-write mark. -/
def Pte.cow (pa : Nat) : Pte :=
  { Pte.leaf pa (protToType true false false true) with rsw := 1 }

def cowVmMap (s : Pmm T) (pt : PageTable) (va pa : Nat) : Outcome (Pmm T × PageTable) := do
  let (found, s, pt) ← pageWalk s pt va
  if !found then .error .undefined
  else
    let s ← addRef s pa
    return (s, pt.set (va / PGSIZE) (Pte.cow pa))

/-- The index of a reclaimed page in `free_block_filter`. -/
def filterIndex (c : Space) (va : Nat) : Nat := u64 (va + (2 ^ 64 - c.heapBottom)) / PGSIZE

/-- `free_block_filter`. The `memset` of `MAX_HEAP_PAGES` bytes clears its
first 8 words; the others start with what the stack held, `garbage`. -/
def freeBlockFilter (c : Space) (garbage : Nat → Bool) (i : Nat) : Bool :=
  c.freePages.any (fun va => filterIndex c va = i) || (decide (8 ≤ i) && garbage i)

/-- The heap loop of `do_fork` over the blocks that are left. -/
def forkHeapFrom (parent : Space) (garbage : Nat → Bool) :
    List Nat → Pmm T → PageTable → Outcome (Pmm T × PageTable)
  | [], s, pt => .ok (s, pt)
  | i :: is, s, pt =>
    if MAX_HEAP_PAGES ≤ i then .error .undefined
    else if freeBlockFilter parent garbage i then forkHeapFrom parent garbage is s pt
    else do
      let va := parent.heapBottom + i * PGSIZE
      let (s, pt) ← cowVmMap s pt va (lookupPa parent.pagetable va)
      forkHeapFrom parent garbage is s pt

def heapBlocks (c : Space) : List Nat :=
  List.range ((c.heapTop - c.heapBottom + (PGSIZE - 1)) / PGSIZE)

def forkHeap (s : Pmm T) (parent child : Space) (garbage : Nat → Bool) :
    Outcome (Pmm T × Space) :=
  if parent.freePages.any (fun va => decide (MAX_HEAP_PAGES ≤ filterIndex parent va)) then
    .error .undefined
  else do
    let (s, pt) ← forkHeapFrom parent garbage (heapBlocks parent) s child.pagetable
    return (s, { child with
      pagetable := pt
      mappedInfo := update child.mappedInfo 3
        { child.mappedInfo 3 with npages := (parent.mappedInfo 3).npages }
      heapTop := parent.heapTop
      heapBottom := parent.heapBottom
      freePages := parent.freePages })

/-- Register a copy of the parent's region at the end of `mapped_info`. -/
def addRegion (c : Space) (va npages : Nat) (segType : SegType) : Outcome Space :=
  if maxRegions ≤ c.totalMappedRegion then .error .undefined
  else .ok { c with
    mappedInfo := update c.mappedInfo c.totalMappedRegion ⟨va, npages, segType⟩
    totalMappedRegion := c.totalMappedRegion + 1 }

/-- The loop of the `DATA_SEGMENT` case of `do_fork` over `n` pages. The
return value of `map_pages` is not looked at. -/
def forkDataFrom (parent : PageTable) :
    Nat → Nat → Pmm T → PageTable → Outcome (Pmm T × PageTable)
  | 0, _, s, pt => .ok (s, pt)
  | n + 1, va, s, pt => do
      let (page, s) ← allocPage s
      let s ← memcpy s page (lookupPa parent va) PGSIZE
      let (_, s, pt) ← mapPages s pt va PGSIZE page (protToType true true false true)
      forkDataFrom parent n (va + PGSIZE) s pt

/-- One turn of the loop of `do_fork`, for the parent's region `r`. -/
def forkRegion (parent : Space) (garbage : Nat → Bool) (s : Pmm T) (child : Space)
    (r : MappedRegion) : Outcome (Pmm T × Space) :=
  match r.segType with
  | .context => .ok (s, child)
  | .system => .ok (s, child)
  | .stack => do
      let s ← memcpy s (lookupPa child.pagetable (child.mappedInfo 0).va)
        (lookupPa parent.pagetable r.va) PGSIZE
      return (s, child)
  | .heap => forkHeap s parent child garbage
  | .code => do
      let (s, pt) ← userVmMap s child.pagetable r.va (r.npages * PGSIZE)
        (lookupPa parent.pagetable r.va) (protToType true false true true)
      let child ← addRegion { child with pagetable := pt } r.va r.npages .code
      return (s, child)
  | .data => do
      let (s, pt) ← forkDataFrom parent.pagetable r.npages r.va s child.pagetable
      let child ← addRegion { child with pagetable := pt } r.va r.npages .data
      return (s, child)

def Space.regions (c : Space) : List MappedRegion :=
  (List.range c.totalMappedRegion).map c.mappedInfo

/-- The loop of `do_fork` over the regions that are left. -/
def forkRegions (parent : Space) (garbage : Nat → Bool) :
    List MappedRegion → Pmm T → Space → Outcome (Pmm T × Space)
  | [], s, child => .ok (s, child)
  | r :: rs, s, child => do
      let (s, child) ← forkRegion parent garbage s child r
      forkRegions parent garbage rs s child

def doForkSpace (s : Pmm T) (trapSec : Nat) (parent : Space) (garbage : Nat → Bool) :
    Outcome (Pmm T × Space) := do
  let (s, child) ← allocProcessSpace s trapSec
  forkRegions parent garbage parent.regions s child

/-! ## Exec -/

/-- The `HEAP_SEGMENT` loop of `proc_clean_pagetable`: `n` pages from `top`
downwards. -/
def cleanHeap (pt : PageTable) : Nat → Nat → Pmm T → Outcome (Pmm T)
  | 0, _, s => .ok s
  | n + 1, top, s => do
      let s ← freePage s (lookupPa pt top)
      cleanHeap pt n (u64 (top + (2 ^ 64 - PGSIZE))) s

/-- The other loop of `proc_clean_pagetable`: `n` pages from `va` on. -/
def cleanRegion : Nat → Nat → Pmm T → PageTable → Outcome (Pmm T × PageTable)
  | 0, _, s, pt => .ok (s, pt)
  | n + 1, va, s, pt =>
    if MAXVA ≤ va then .error (.panic "page_walk" [])
    else if !pt.walks (va / PGSIZE) then .error .undefined
    else if (pt.pte (va / PGSIZE)).perm.w ∧ (pt.pte (va / PGSIZE)).v then do
      let s ← freePage s (pt.pte (va / PGSIZE)).pa
      cleanRegion n (va + PGSIZE) s (pt.invalidate (va / PGSIZE))
    else cleanRegion n (va + PGSIZE) s pt

/-- `proc_clean_pagetable` over the regions that are left. -/
def cleanRegions (heapTop : Nat) :
    List MappedRegion → Pmm T → PageTable → Outcome (Pmm T × PageTable)
  | [], s, pt => .ok (s, pt)
  | r :: rs, s, pt => do
      if r.segType = .heap then
        let s ← cleanHeap pt r.npages (u64 (heapTop + (2 ^ 64 - PGSIZE))) s
        cleanRegions heapTop rs s pt
      else
        let (s, pt) ← cleanRegion r.npages r.va s pt
        cleanRegions heapTop rs s pt

def procCleanPagetable (s : Pmm T) (c : Space) : Outcome (Pmm T × PageTable) :=
  cleanRegions c.heapTop c.regions s c.pagetable

def execClean (s : Pmm T) (trapSec : Nat) (c : Space) : Outcome (Pmm T × Space) := do
  let (s, _) ← procCleanPagetable s c
  let (trapframe, s) ← allocPage s
  let s ← memset s trapframe trapframeSize
  let s ← memset s c.pagetable.dir PGSIZE
  let (userStack, s) ← allocPage s
  initSpace s trapSec (.empty c.pagetable.dir) trapframe userStack

/-- The memory side of `do_exec` on a program that can be opened. -/
def doExecSpace (s : Pmm T) (trapSec : Nat) (c : Space) (phs : List ElfProgHeader) :
    Outcome (Pmm T × Space) := do
  let (s, c) ← execClean s trapSec c
  elfLoad s c phs

/-! ## Heap pages and page faults -/

def sysUserAllocatePage (s : Pmm T) (c : Space) : Outcome (Pmm T × Space) := do
  let (pa, s) ← allocPage s
  match c.freePages with
  | va :: rest =>
    if c.heapTop ≤ va then
      .error (.assertion "va < current[hart_id]->user_heap.heap_top")
    else do
      let (s, pt) ← userVmMap s c.pagetable va PGSIZE pa (protToType true true false true)
      return (s, { c with pagetable := pt, freePages := rest })
  | [] => do
      let (s, pt) ← userVmMap s c.pagetable c.heapTop PGSIZE pa
        (protToType true true false true)
      return (s, { c with
        pagetable := pt
        heapTop := u64 (c.heapTop + PGSIZE)
        mappedInfo := update c.mappedInfo 3
          { c.mappedInfo 3 with npages := (c.mappedInfo 3).npages + 1 } })

def userVmUnmap (s : Pmm T) (pt : PageTable) (va : Nat) : Outcome (Pmm T × PageTable) :=
  if MAXVA ≤ va then .error (.panic "page_walk" [])
  else if !pt.walks (va / PGSIZE) then .error (.panic "fail to user_vm_unmap .\n" [])
  else do
    let s ← freePage s (pt.pte (va / PGSIZE)).pa
    return (s, pt.invalidate (va / PGSIZE))

def sysUserFreePage (s : Pmm T) (c : Space) (va : Nat) : Outcome (Pmm T × Space) := do
  let (s, pt) ← userVmUnmap s c.pagetable va
  if MAX_HEAP_PAGES ≤ c.freePages.length then .error .undefined
  else return (s, { c with pagetable := pt, freePages := va :: c.freePages })

/-- Does `handle_user_page_fault` take the address for one of the stack? -/
def stackFault (sp stval : Nat) : Prop := sp < stval ∧ stval < USER_STACK_TOP

instance stackFault.decidable (sp stval : Nat) : Decidable (stackFault sp stval) :=
  inferInstanceAs (Decidable (_ ∧ _))

/-- `handle_user_page_fault` on `CAUSE_STORE_PAGE_FAULT` -/
def handleUserPageFault (s : Pmm T) (c : Space) (sp stval : Nat) :
    Outcome (Pmm T × Space) :=
  if stackFault sp stval then do
    let (pa, s) ← allocPage s
    if pa = 0 then .error (.panic "alloc_page failed.\n" [])
    else
      let (found, s, pt) ← pageWalk s c.pagetable stval
      if !found then .error .undefined
      else return (s, { c with
        pagetable := pt.set (stval / PGSIZE) (.leaf pa (protToType true true false true)) })
  else if MAXVA ≤ stval then .error (.panic "page_walk" [])
  else if !c.pagetable.walks (stval / PGSIZE) then .error .undefined
  else if (c.pagetable.pte (stval / PGSIZE)).rsw = 1 then do
    let s ← freePage s (c.pagetable.pte (stval / PGSIZE)).pa
    let (pa, s) ← allocPage s
    if pa = 0 then .error (.panic "alloc_page failed.\n" [])
    else return (s, { c with
      pagetable := c.pagetable.set (stval / PGSIZE)
        (.leaf pa (protToType true true false true)) })
  else .error (.panic "this address is not available!" [])

/-- The entry the hardware finds for an address; none from `MAXVA` on. -/
def Space.translate (c : Space) (va : Nat) : Pte :=
  if va < MAXVA then c.pagetable.entry (va / PGSIZE) else Pte.zero

def Pte.storable (e : Pte) : Bool := e.v && e.perm.w && e.perm.u

def Pte.loadable (e : Pte) : Bool := e.v && e.perm.r && e.perm.u

/-- A store of user code with stack pointer `sp`. One that the page does
not permit faults; it is executed again after the handler returns. -/
def userStore (s : Pmm T) (c : Space) (sp va : Nat) (b : UInt8) : Outcome (Pmm T × Space) :=
  let e := c.translate va
  if e.storable then
    .ok ({ s with mem := fillBytes s.mem (e.pa + va % PGSIZE) b 1 }, c)
  else handleUserPageFault s c sp va

/-- What user code reads at `va`; `none` where a load would fault. -/
def userLoad (s : Pmm T) (c : Space) (va : Nat) : Option UInt8 :=
  let e := c.translate va
  if e.loadable then some (s.mem (e.pa + va % PGSIZE)) else none

/-! ## All processes -/

/-- The allocator and the address spaces of the processes that are `READY`,
`RUNNING` or `BLOCKED`; the other slots are free. -/
structure VmSys (T : Type) where
  pmm : Pmm T
  /-- `trap_sec_start` -/
  trapSec : Nat
  procs : Nat → Option Space

inductive VmOp
  /-- `load_user_program` on a program with these headers -/
  | load (phs : List ElfProgHeader)
  | fork (p : Nat) (garbage : Nat → Bool)
  | exec (p : Nat) (phs : List ElfProgHeader)
  | allocatePage (p : Nat)
  | freePage (p va : Nat)
  | store (p sp va : Nat) (b : UInt8)

def VmSys.freeSlot (s : VmSys T) : Outcome Nat :=
  match (List.range NPROC).find? (fun i => (s.procs i).isNone) with
  | none => .error (.panic "cannot find any free process structure.\n" [])
  | some i => .ok i

def VmSys.space (s : VmSys T) (p : Nat) : Outcome Space :=
  match s.procs p with
  | none => .error .undefined
  | some c => .ok c

def VmSys.put (s : VmSys T) (pmm : Pmm T) (p : Nat) (c : Space) : VmSys T :=
  { s with pmm := pmm, procs := update s.procs p (some c) }

def VmSys.step (s : VmSys T) : VmOp → Outcome (VmSys T)
  | .load phs => do
      let i ← s.freeSlot
      let (pmm, c) ← allocProcessSpace s.pmm s.trapSec
      let (pmm, c) ← elfLoad pmm c phs
      return s.put pmm i c
  | .fork p garbage => do
      let parent ← s.space p
      let i ← s.freeSlot
      let (pmm, c) ← doForkSpace s.pmm s.trapSec parent garbage
      return s.put pmm i c
  | .exec p phs => do
      let c ← s.space p
      let (pmm, c) ← doExecSpace s.pmm s.trapSec c phs
      return s.put pmm p c
  | .allocatePage p => do
      let c ← s.space p
      let (pmm, c) ← sysUserAllocatePage s.pmm c
      return s.put pmm p c
  | .freePage p va => do
      let c ← s.space p
      let (pmm, c) ← sysUserFreePage s.pmm c va
      return s.put pmm p c
  | .store p sp va b => do
      let c ← s.space p
      let (pmm, c) ← userStore s.pmm c sp va b
      return s.put pmm p c

/-- The system after `pmm_init`, before the first process. -/
def vmBoot (kernelEnd memSize : Nat) (mem : Mem) (refs : T) (trapSec : Nat) :
    Outcome (VmSys T) := do
  let pmm ← pmmInit kernelEnd memSize mem refs
  return { pmm := pmm, trapSec := trapSec, procs := fun _ => none }

def vmSmall (refs : T) : Outcome (VmSys T) :=
  vmBoot 0x80006000 (64 * PGSIZE) (fun _ => 0) refs 0x80001000

/-- After `ops` on a small machine the free pages are still a list, and `P` holds of the
allocator and of the first process. -/
abbrev ProcessAfter (ops : List VmOp) (P : Pmm RefList → Space → Prop) : Prop :=
  ∃ s₀, vmSmall ([] : RefList) = .ok s₀ ∧ ∃ s, Runs VmSys.step (fun _ _ => True) s₀ ops s ∧
    ∃ c, s.procs 0 = some c ∧ s.pmm.Listed (s.pmm.freeList 64) ∧ P s.pmm c

end CabbagePKE
