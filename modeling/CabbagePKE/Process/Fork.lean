import CabbagePKE.Vm.Space
import CabbagePKE.Sched.Queues

/-!
# A forked process and its slot

`alloc_process` and `do_fork` fill the process structure of a free slot field by
field and leave the fields they do not name as the last process left them. Here
the structure has all its fields; the loops of `do_fork` and
`insert_to_ready_queue` are those of the models of spaces and of the scheduler.
-/

namespace CabbagePKE

open Lib Function

variable {T : Type} [RefTable T]

structure HeapManager where
  heapTop : Nat
  heapBottom : Nat
  freePagesAddress : Nat → Nat
  freePagesCount : Nat

/-- `process`; its `pid` is the number of the slot. `proc` holds the fields
`status`, `parent`, `queue_next`, `tick_count` and `is_child`, and the register
`a0` of the trapframe. Pointers are addresses. -/
structure Process where
  proc : Proc
  kstack : Nat
  pagetable : PageTable
  trapframe : Nat
  /-- the page with the regions -/
  mappedPage : Nat
  mappedInfo : Nat → MappedRegion
  totalMappedRegion : Nat
  userHeap : HeapManager
  pfiles : Nat
  debugline : Nat
  dir : Nat
  file : Nat
  line : Nat
  lineInd : Int
  firstFreeBlock : Nat

def Process.space (x : Process) : Space :=
  { pagetable := x.pagetable
    trapframe := x.trapframe
    mappedInfo := x.mappedInfo
    totalMappedRegion := x.totalMappedRegion
    heapTop := x.userHeap.heapTop
    heapBottom := x.userHeap.heapBottom
    freePages := ((List.range x.userHeap.freePagesCount).map x.userHeap.freePagesAddress).reverse }

structure OpenFile where
  status : Int
  readable : Int
  writable : Int
  offset : Int
  dentry : Option Nat

structure ProcFiles where
  cwd : Nat
  openedFiles : Nat → OpenFile
  nfiles : Int

def FD_NONE : Int := 0

/-- What `do_fork` reads and writes: the allocator, the processes, the ready
queue, the tables of open files (by page) and the `d_ref` of the dentries. -/
structure Kernel (T : Type) where
  pmm : Pmm T
  trapSec : Nat
  vfsRootDentry : Nat
  procs : Nat → Process
  readyQueueHead : Option Nat
  files : Nat → ProcFiles
  dRef : Nat → Int

structure ProcPages where
  kstack : Nat
  mapped : Nat
  pfiles : Nat

/-- The pages of `alloc_process`, and the address space made from them. -/
def allocProcessPages (s : Pmm T) (trapSec : Nat) : Outcome (Pmm T × ProcPages × Space) := do
  let (trapframe, s) ← allocPage s
  let s ← memset s trapframe trapframeSize
  let (dir, s) ← allocPage s
  let s ← memset s dir PGSIZE
  let (kstack, s) ← allocPage s
  let (userStack, s) ← allocPage s
  let (info, s) ← allocPage s
  let s ← memset s info PGSIZE
  let (s, c) ← initSpace s trapSec (.empty dir) trapframe userStack
  let (pfiles, s) ← allocPage s
  if pfiles = 0 then .error .undefined
  else return (s, ⟨kstack + PGSIZE, info, pfiles⟩, c)

/-- `init_proc_file_management`, on a page that held `old` -/
def initProcFileManagement (root : Nat) (old : ProcFiles) : ProcFiles :=
  { cwd := root
    openedFiles := fun fd =>
      if fd < MAX_FILES then { old.openedFiles fd with status := FD_NONE } else old.openedFiles fd
    nfiles := 0 }

def Kernel.freeSlot (k : Kernel T) : Outcome Nat :=
  match (List.range NPROC).find? (fun i => (k.procs i).proc.status = .free) with
  | some i => .ok i
  | none => .error (.panic "cannot find any free process structure.\n" [])

/-- The stores of `alloc_process` into the structure `x`. -/
def Process.init (x : Process) (pages : ProcPages) (c : Space) : Process :=
  { x with
    trapframe := c.trapframe
    pagetable := c.pagetable
    kstack := pages.kstack
    mappedPage := pages.mapped
    mappedInfo := c.mappedInfo
    totalMappedRegion := c.totalMappedRegion
    userHeap :=
      { x.userHeap with
        heapTop := USER_FREE_ADDRESS_START
        heapBottom := USER_FREE_ADDRESS_START
        freePagesCount := 0 }
    pfiles := pages.pfiles }

def Kernel.allocProcess (k : Kernel T) : Outcome (Nat × Kernel T) := do
  let i ← k.freeSlot
  let (pmm, pages, c) ← allocProcessPages k.pmm k.trapSec
  return (i, { k with
    pmm := pmm
    procs := update k.procs i ((k.procs i).init pages c)
    files := update k.files pages.pfiles
      (initProcFileManagement k.vfsRootDentry (k.files pages.pfiles)) })

/-- The stores of `do_fork` into the child `x`, whose address space has become
`c`. The heap manager is copied where the parent has a heap region. -/
def Process.fork (x parent : Process) (c : Space) (par : Nat) : Process :=
  { x with
    pagetable := c.pagetable
    mappedInfo := c.mappedInfo
    totalMappedRegion := c.totalMappedRegion
    userHeap := if parent.space.regions.any (fun r => r.segType = .heap) then parent.userHeap
      else x.userHeap
    proc := { x.proc with status := .ready, a0 := 0, parent := some par } }

def forkFiles (child parent : ProcFiles) : ProcFiles :=
  { cwd := parent.cwd
    openedFiles := fun fd =>
      if fd < MAX_FILES then parent.openedFiles fd else child.openedFiles fd
    nfiles := parent.nfiles }

def countFiles (dRef : Nat → Int) (parent : ProcFiles) (d : Nat) : Int :=
  dRef d + ((List.range MAX_FILES).filter
    (fun fd => (parent.openedFiles fd).dentry = some d)).length

/-- `do_fork`; it returns the slot of the child. -/
def Kernel.doFork (k : Kernel T) (par : Nat) (garbage : Nat → Bool) :
    Outcome (Nat × Kernel T) := do
  let (i, k) ← k.allocProcess
  let parent := k.procs par
  let (pmm, c) ← forkRegions parent.space garbage parent.space.regions k.pmm (k.procs i).space
  let child := (k.procs i).fork parent c par
  let procs := update k.procs i child
  let (queue, head) ← enqueue (fun j => (procs j).proc) k.readyQueueHead i .ready
  return (i, { k with
    pmm := pmm
    procs := fun j => { procs j with proc := queue j }
    readyQueueHead := head
    files := update k.files child.pfiles
      (forkFiles (k.files child.pfiles) (k.files parent.pfiles))
    dRef := countFiles k.dRef (k.files parent.pfiles) })

/-! ## What a child keeps of its slot -/

/-- The two states differ in nothing but what was left in the free slot `i`. -/
structure Kernel.SameBut (i : Nat) (k k' : Kernel T) : Prop where
  pmm : k'.pmm = k.pmm
  trapSec : k'.trapSec = k.trapSec
  vfsRootDentry : k'.vfsRootDentry = k.vfsRootDentry
  readyQueueHead : k'.readyQueueHead = k.readyQueueHead
  files : k'.files = k.files
  dRef : k'.dRef = k.dRef
  procs : ∀ j, j ≠ i → k'.procs j = k.procs j
  free : (k.procs i).proc.status = .free
  free' : (k'.procs i).proc.status = .free

def Kernel.queueNext (k : Kernel T) (j : Nat) : Option Nat := (k.procs j).proc.queueNext

/-- The slot `i` was left alike in the fields that neither `alloc_process` nor
`do_fork` sets: always the first eight, the addresses of the free pages if the
parent has no heap region, and the link if the free slot is on the ready queue. -/
structure Kernel.LeftAlike (par i : Nat) (k k' : Kernel T) : Prop where
  tickCount : (k'.procs i).proc.tickCount = (k.procs i).proc.tickCount
  isChild : (k'.procs i).proc.isChild = (k.procs i).proc.isChild
  debugline : (k'.procs i).debugline = (k.procs i).debugline
  dir : (k'.procs i).dir = (k.procs i).dir
  file : (k'.procs i).file = (k.procs i).file
  line : (k'.procs i).line = (k.procs i).line
  lineInd : (k'.procs i).lineInd = (k.procs i).lineInd
  firstFreeBlock : (k'.procs i).firstFreeBlock = (k.procs i).firstFreeBlock
  freePagesAddress : (∀ r ∈ (k.procs par).space.regions, r.segType ≠ .heap) →
    (k'.procs i).userHeap.freePagesAddress = (k.procs i).userHeap.freePagesAddress
  queueNext : Linked k.queueNext k.readyQueueHead i →
    (k'.procs i).proc.queueNext = (k.procs i).proc.queueNext

section

variable {k k' k₁ : Kernel T} {par i : Nat} {garbage : Nat → Bool}
  {c c0 : Space} {pages : ProcPages} {pmm pmm0 : Pmm T} {queue : Nat → Proc}
  {head : Option Nat}

omit [RefTable T] in
theorem Kernel.freeSlot_free (h : k.freeSlot = .ok i) : (k.procs i).proc.status = .free := by
  unfold Kernel.freeSlot at h
  split at h
  · rename_i j hfind
    cases h
    simpa using List.find?_some hfind
  · cases h

omit [RefTable T] in
theorem Kernel.SameBut.freeSlot (h : k.SameBut i k') : k'.freeSlot = k.freeSlot := by
  have hst : ∀ j, (k'.procs j).proc.status = (k.procs j).proc.status := by
    intro j
    by_cases hj : j = i
    · rw [hj, h.free, h.free']
    · rw [h.procs j hj]
  unfold Kernel.freeSlot
  simp only [hst]

/-- What `do_fork` computes, with the slot, the pages, the space and the queue
that it finds on the way. -/
structure Kernel.Forks (k : Kernel T) (par : Nat) (garbage : Nat → Bool) (i : Nat)
    (pages : ProcPages) (c₀ c : Space) (pmm₀ pmm : Pmm T) (queue : Nat → Proc)
    (head : Option Nat) : Prop where
  slot : k.freeSlot = .ok i
  alloc : allocProcessPages k.pmm k.trapSec = .ok (pmm₀, pages, c₀)
  regions : forkRegions (k.procs par).space garbage (k.procs par).space.regions pmm₀
    ((k.procs i).init pages c₀).space = .ok (pmm, c)
  queued : enqueue (fun j => (update k.procs i
    (((k.procs i).init pages c₀).fork (k.procs par) c par) j).proc) k.readyQueueHead i .ready =
      .ok (queue, head)

theorem Kernel.doFork_inv (hpar : (k.procs par).proc.status ≠ .free)
    (h : k.doFork par garbage = .ok (i, k₁)) :
    ∃ pages c0 c pmm0 queue head, k.Forks par garbage i pages c0 c pmm0 k₁.pmm queue head ∧
      k₁.procs i = { ((k.procs i).init pages c0).fork (k.procs par) c par with
        proc := queue i } := by
  simp only [Kernel.doFork, Kernel.allocProcess, bind_eq_ok, pure_eq_ok] at h
  obtain ⟨⟨i', ka⟩, ⟨j, hslot, ⟨pmm0, pages, c0⟩, halloc, hka⟩, ⟨pmm, c⟩, hreg, ⟨queue, head⟩, hq,
    h⟩ := h
  cases hka
  cases h
  have hne : par ≠ i' := by
    rintro rfl
    exact hpar (Kernel.freeSlot_free hslot)
  simp only [update_self, update_of_ne hne, update_idem] at hreg hq ⊢
  exact ⟨pages, c0, c, pmm0, queue, head, ⟨hslot, halloc, hreg, hq⟩, rfl⟩

theorem Kernel.Forks.doFork (hpar : (k.procs par).proc.status ≠ .free)
    (h : k.Forks par garbage i pages c0 c pmm0 pmm queue head) :
    ∃ k₁, k.doFork par garbage = .ok (i, k₁) ∧
      k₁.procs i = { ((k.procs i).init pages c0).fork (k.procs par) c par with
        proc := queue i } := by
  have hne : par ≠ i := by
    rintro rfl
    exact hpar (Kernel.freeSlot_free h.slot)
  have hreg := h.regions
  have hq := h.queued
  simp only [Kernel.doFork, Kernel.allocProcess, h.slot, h.alloc, ok_bind, pure_eq_ok,
    update_self, update_of_ne hne, update_idem, hreg, hq]
  exact ⟨_, rfl, by simp only [update_self]⟩

theorem Kernel.SameBut.forks (hs : k.SameBut i k') (hne : par ≠ i)
    (h : k.Forks par garbage i pages c0 c pmm0 pmm queue head) :
    ∃ queue', k'.Forks par garbage i pages c0 c pmm0 pmm queue' head := by
  have hqueue := h.queued
  rw [← hs.readyQueueHead] at hqueue
  have hother : ∀ j, j ≠ i →
      (update k'.procs i
        (((k'.procs i).init pages c0).fork (k'.procs par) c par) j).proc =
      (update k.procs i (((k.procs i).init pages c0).fork (k.procs par) c par) j).proc := by
    intro j hj
    simp only [update_of_ne hj, hs.procs j hj]
  obtain ⟨queue', hq'⟩ := enqueue_congr hother hqueue
  refine ⟨queue', hs.freeSlot.trans h.slot, ?_, ?_, hq'⟩
  · rw [hs.pmm, hs.trapSec]
    exact h.alloc
  · rw [hs.procs par hne]
    exact h.regions

theorem Process.child_eq_iff (x y parent : Process) (pages : ProcPages) (c0 c : Space) (par : Nat)
    (p q : Proc) :
    ({ (y.init pages c0).fork parent c par with proc := q } : Process) =
        { (x.init pages c0).fork parent c par with proc := p } ↔
      q = p ∧ y.debugline = x.debugline ∧ y.dir = x.dir ∧ y.file = x.file ∧ y.line = x.line ∧
        y.lineInd = x.lineInd ∧ y.firstFreeBlock = x.firstFreeBlock ∧
        ((∀ r ∈ parent.space.regions, r.segType ≠ .heap) →
          y.userHeap.freePagesAddress = x.userHeap.freePagesAddress) := by
  by_cases hany : parent.space.regions.any (fun r => r.segType = .heap) = true
  · have hsome : ¬ ∀ r ∈ parent.space.regions, r.segType ≠ .heap := by simpa using hany
    simp [Process.fork, Process.init, hany, hsome]
  · have hnone : ∀ r ∈ parent.space.regions, r.segType ≠ .heap := by simpa using hany
    simp only [Process.fork, Process.init, hany, Process.mk.injEq, HeapManager.mk.injEq, if_false,
      Bool.false_eq_true, true_and, and_true]
    constructor
    · rintro ⟨hp, hfree, hline, hdir, hfile, hl, hind, hfirst⟩
      exact ⟨hp, hline, hdir, hfile, hl, hind, hfirst, fun _ => hfree⟩
    · rintro ⟨hp, hline, hdir, hfile, hl, hind, hfirst, hfree⟩
      exact ⟨hp, hfree hnone, hline, hdir, hfile, hl, hind, hfirst⟩

theorem Kernel.Forks.queue_self (h : k.Forks par garbage i pages c0 c pmm0 pmm queue head) :
    (Linked k.queueNext k.readyQueueHead i ∧ queue i =
      { (k.procs i).proc with status := .ready, a0 := 0, parent := some par }) ∨
    (¬ Linked k.queueNext k.readyQueueHead i ∧ queue i = { (k.procs i).proc with
        status := .ready, a0 := 0, parent := some par, queueNext := none }) := by
  have hoff : ∀ j, j ≠ i → queueLinks (fun j => (update k.procs i
      (((k.procs i).init pages c0).fork (k.procs par) c par) j).proc) j = k.queueNext j := by
    intro j hj
    simp only [queueLinks, Kernel.queueNext, update_of_ne hj]
  rcases enqueue_self h.queued with ⟨hl, hi⟩ | ⟨hl, hi⟩
  · refine .inl ⟨hl.congr_off (fun j hj => (hoff j hj).symm), ?_⟩
    rw [hi]
    simp [Process.fork, Process.init]
  · refine .inr ⟨fun hl' => hl (hl'.congr_off hoff), ?_⟩
    rw [hi]
    simp [Process.fork, Process.init]

omit [RefTable T] in
theorem Kernel.SameBut.linked_iff (hs : k.SameBut i k') :
    Linked k'.queueNext k'.readyQueueHead i ↔ Linked k.queueNext k.readyQueueHead i := by
  have hoff : ∀ j, j ≠ i → k'.queueNext j = k.queueNext j := by
    intro j hj
    rw [Kernel.queueNext, Kernel.queueNext, hs.procs j hj]
  rw [hs.readyQueueHead]
  exact ⟨fun hl => hl.congr_off (fun j hj => (hoff j hj).symm), fun hl => hl.congr_off hoff⟩

theorem Kernel.SameBut.child_iff {queue' : Nat → Proc} (hs : k.SameBut i k') (hne : par ≠ i)
    (hf : k.Forks par garbage i pages c0 c pmm0 pmm queue head)
    (hf' : k'.Forks par garbage i pages c0 c pmm0 pmm queue' head) :
    ({ ((k'.procs i).init pages c0).fork (k'.procs par) c par with proc := queue' i } : Process) =
        { ((k.procs i).init pages c0).fork (k.procs par) c par with proc := queue i } ↔
      k.LeftAlike par i k' := by
  have hproc : queue' i = queue i ↔
      (k'.procs i).proc.tickCount = (k.procs i).proc.tickCount ∧
        (k'.procs i).proc.isChild = (k.procs i).proc.isChild ∧
        (Linked k.queueNext k.readyQueueHead i →
          (k'.procs i).proc.queueNext = (k.procs i).proc.queueNext) := by
    rcases hf.queue_self with ⟨hl, hq⟩ | ⟨hl, hq⟩
    · rcases hf'.queue_self with ⟨-, hq'⟩ | ⟨hl', -⟩
      · rw [hq, hq']
        simp only [Proc.mk.injEq, true_and, hl, true_implies]
        tauto
      · exact absurd (hs.linked_iff.mpr hl) hl'
    · rcases hf'.queue_self with ⟨hl', -⟩ | ⟨-, hq'⟩
      · exact absurd (hs.linked_iff.mp hl') hl
      · rw [hq, hq']
        simp [hl]
  rw [hs.procs par hne, Process.child_eq_iff, hproc]
  constructor
  · rintro ⟨⟨htick, hchild, hnext⟩, hdebug, hdir, hfile, hline, hind, hblock, hheap⟩
    exact ⟨htick, hchild, hdebug, hdir, hfile, hline, hind, hblock, hheap, hnext⟩
  · intro ha
    exact ⟨⟨ha.tickCount, ha.isChild, ha.queueNext⟩, ha.debugline, ha.dir, ha.file, ha.line,
      ha.lineInd, ha.firstFreeBlock, ha.freePagesAddress⟩

/-- `do_fork` into a slot gives the same process structure whatever was left in
the slot exactly if the fields that it does not set were left alike. -/
theorem fork_child_eq_iff (hs : k.SameBut i k') (hpar : (k.procs par).proc.status ≠ .free)
    (h : k.doFork par garbage = .ok (i, k₁)) :
    ∃ k₁', k'.doFork par garbage = .ok (i, k₁') ∧
      (k₁'.procs i = k₁.procs i ↔ k.LeftAlike par i k') := by
  obtain ⟨pages, c₀, c, pmm₀, queue, head, hf, hchild⟩ := Kernel.doFork_inv hpar h
  have hne : par ≠ i := by
    rintro rfl
    exact hpar hs.free
  obtain ⟨queue', hf'⟩ := hs.forks hne hf
  obtain ⟨k₁', hk', hchild'⟩ := hf'.doFork (by rwa [hs.procs par hne])
  refine ⟨k₁', hk', ?_⟩
  rw [hchild, hchild']
  exact hs.child_iff hne hf hf'

end

/-! ## Two states on a small machine -/

def Process.zero : Process :=
  { proc := ⟨.free, none, none, 0, 0, false⟩
    kstack := 0
    pagetable := .empty 0
    trapframe := 0
    mappedPage := 0
    mappedInfo := fun _ => .zero
    totalMappedRegion := 0
    userHeap := ⟨0, 0, fun _ => 0, 0⟩
    pfiles := 0
    debugline := 0
    dir := 0
    file := 0
    line := 0
    lineInd := 0
    firstFreeBlock := 0 }

def kernelBoot (kernelEnd memSize : Nat) (mem : Mem) (refs : T) (trapSec root : Nat) :
    Outcome (Kernel T) := do
  let pmm ← pmmInit kernelEnd memSize mem refs
  return {
    pmm := pmm
    trapSec := trapSec
    vfsRootDentry := root
    procs := fun _ => .zero
    readyQueueHead := none
    files := fun _ => ⟨0, fun _ => ⟨0, 0, 0, 0, none⟩, 0⟩
    dRef := fun _ => 0 }

def Kernel.leave (k : Kernel T) (i : Nat) (x : Process) : Kernel T :=
  { k with procs := update k.procs i x }

def oneProcess : Outcome (Kernel RefList) := do
  let k ← kernelBoot 0x80006000 (64 * PGSIZE) (fun _ => 0) [] 0x80001000 0
  let (i, k) ← k.allocProcess
  return k.leave i { k.procs i with proc := { (k.procs i).proc with status := .running } }

omit [RefTable T] in
theorem Kernel.sameBut_leave {k : Kernel T} {i : Nat} {x : Process}
    (hfree : (k.procs i).proc.status = .free) (hx : x.proc.status = .free) :
    k.SameBut i (k.leave i x) :=
  ⟨rfl, rfl, rfl, rfl, rfl, rfl, fun _ hj => update_of_ne hj _ _, hfree, by
    simp [Kernel.leave, hx]⟩

theorem oneProcess_forks : ∃ k k₁ : Kernel RefList,
    (k.procs 1).proc.status = .free ∧ (k.procs 1).firstFreeBlock = 0 ∧
      (k.procs 0).proc.status ≠ .free ∧ k.doFork 0 (fun _ => false) = .ok (1, k₁) := by
  obtain ⟨k, -, hfree, hzero, hrun, ⟨i, k₁⟩, hk1, rfl⟩ : ∃ k, oneProcess = .ok k ∧
      (k.procs 1).proc.status = .free ∧ (k.procs 1).firstFreeBlock = 0 ∧
      (k.procs 0).proc.status ≠ .free ∧ ∃ r, k.doFork 0 (fun _ => false) = .ok r ∧ r.1 = 1 := by
    decide +kernel
  exact ⟨k, k₁, hfree, hzero, hrun, hk1⟩

/-- Another kernel stack and another parent in the slot make no difference. -/
theorem fork_child_eq_iff_stack : ∃ k k' k₁ k₁' : Kernel RefList, k.SameBut 1 k' ∧
    (k'.procs 1).kstack = (k.procs 1).kstack + PGSIZE ∧
      k.doFork 0 (fun _ => false) = .ok (1, k₁) ∧ k'.doFork 0 (fun _ => false) = .ok (1, k₁') ∧
      k₁'.procs 1 = k₁.procs 1 := by
  obtain ⟨k, k₁, hfree, -, hrun, hk₁⟩ := oneProcess_forks
  have hs := Kernel.sameBut_leave (x := { k.procs 1 with
    kstack := (k.procs 1).kstack + PGSIZE
    proc := { (k.procs 1).proc with parent := some 7 } }) hfree hfree
  obtain ⟨k₁', hk₁', hiff⟩ := fork_child_eq_iff hs hrun hk₁
  refine ⟨k, _, k₁, k₁', hs, by simp [Kernel.leave], hk₁, hk₁', hiff.mpr ?_⟩
  constructor <;> simp [Kernel.leave]

/-- A child gets the free list that the last process in its slot left. -/
theorem fork_child_inherits : ¬ ∀ (k k' k₁ k₁' : Kernel RefList) (par i : Nat)
    (garbage : Nat → Bool), k.SameBut i k' → (k.procs par).proc.status ≠ .free →
      k.doFork par garbage = .ok (i, k₁) → k'.doFork par garbage = .ok (i, k₁') →
      k₁'.procs i = k₁.procs i := by
  intro hclaim
  obtain ⟨k, k₁, hfree, hzero, hrun, hk₁⟩ := oneProcess_forks
  obtain ⟨k', hs, hleft⟩ : ∃ k', k.SameBut 1 k' ∧
      (k'.procs 1).firstFreeBlock = USER_FREE_ADDRESS_START :=
    ⟨_, Kernel.sameBut_leave (x := { k.procs 1 with
      firstFreeBlock := USER_FREE_ADDRESS_START }) hfree hfree, by simp [Kernel.leave]⟩
  obtain ⟨pages, c₀, c, pmm₀, queue, head, hf, hchild⟩ := Kernel.doFork_inv hrun hk₁
  obtain ⟨queue', hf'⟩ := hs.forks (by decide) hf
  obtain ⟨k₁', hk₁', hchild'⟩ := hf'.doFork (by rwa [hs.procs 0 (by decide)])
  have heq := hclaim k k' k₁ k₁' 0 1 _ hs hrun hk₁ hk₁'
  rw [hchild, hchild'] at heq
  have hblock := ((hs.child_iff (by decide) hf hf').mp heq).firstFreeBlock
  rw [hzero, hleft] at hblock
  exact absurd hblock (by decide)

end CabbagePKE
