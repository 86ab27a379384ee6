import CabbagePKE.Heap.Malloc
import CabbagePKE.Vm.Space

/-!
# The heap across `exec`

`exec_clean` sets up the heap of the new image field by field. It resets
`user_heap` and the heap region but not `first_free_block`, the head of the free
list of `vm_malloc`, whose blocks were in the pages it has just freed. So a new
image starts with the heap of a new process exactly if that list was empty.
-/

namespace CabbagePKE

open Lib Function List

variable {T : Type} [RefTable T]

/-! ## A process that uses its heap -/

/-- The page allocator, the address space of a process and its
`first_free_block`. -/
structure HeapUser (T : Type) where
  pmm : Pmm T
  space : Space
  firstFreeBlock : Nat

/-- The process as `vm_malloc` and `vm_free` see it. -/
def HeapUser.proc (u : HeapUser T) : HeapProc T :=
  { pmm := u.pmm
    pagetable := u.space.pagetable
    heapTop := u.space.heapTop
    npages := (u.space.mappedInfo 3).npages
    firstFreeBlock := u.firstFreeBlock }

/-- The process after a call of `vm_malloc` or `vm_free`. -/
def HeapUser.withProc (u : HeapUser T) (s : HeapProc T) : HeapUser T :=
  { pmm := s.pmm
    space := { u.space with
      pagetable := s.pagetable
      heapTop := s.heapTop
      mappedInfo := update u.space.mappedInfo 3
        { u.space.mappedInfo 3 with npages := s.npages } }
    firstFreeBlock := s.firstFreeBlock }

inductive HeapCall
  | malloc (n : Nat)
  | free (va : Nat)
  | allocatePage
  | freePage (va : Nat)

def HeapUser.step (u : HeapUser T) : HeapCall → Outcome (HeapUser T)
  | .malloc n => do
      let (_, s) ← vmMalloc u.proc n
      return u.withProc s
  | .free va => do
      let s ← vmFree u.proc va
      return u.withProc s
  | .allocatePage => do
      let (pmm, c) ← sysUserAllocatePage u.pmm u.space
      return { u with pmm := pmm, space := c }
  | .freePage va => do
      let (pmm, c) ← sysUserFreePage u.pmm u.space va
      return { u with pmm := pmm, space := c }

/-- `load_user_program`, in a slot that `init_proc_pool` has zeroed -/
def HeapUser.boot (pmm : Pmm T) (trapSec : Nat) (phs : List ElfProgHeader) :
    Outcome (HeapUser T) := do
  let (pmm, c) ← allocProcessSpace pmm trapSec
  let (pmm, c) ← elfLoad pmm c phs
  return { pmm := pmm, space := c, firstFreeBlock := 0 }

def HeapUser.exec (u : HeapUser T) (trapSec : Nat) (phs : List ElfProgHeader) :
    Outcome (HeapUser T) := do
  let (pmm, c) ← execClean u.pmm trapSec u.space
  let (pmm, c) ← elfLoad pmm c phs
  return { u with pmm := pmm, space := c }

/-! ## The heads that `vm_malloc` touches -/

/-- The heads that the search of `alloc_from_free_block` reads. -/
def fitHeads (s : HeapProc T) (need : Nat) : Nat → Nat → List Nat
  | 0, _ => []
  | fuel + 1, cur =>
    if cur = 0 then []
    else cur :: if need ≤ capacityOf s cur then [] else fitHeads s need fuel (nextOf s cur)

/-- The heads that `alloc_from_new_block` writes once block `maxVa` is found, with the page
table at the time. -/
def restHeads (s : HeapProc T) (need maxVa maxPre : Nat) : List (PageTable × Nat) :=
  let grown := do
    let s' ← setNext s maxVa 0
    let s' ← setCapacity s' maxVa need
    growHeap loopBound s' (u64 (need + (2 ^ 64 - capacityOf s maxVa)))
  match grown with
  | .error _ => []
  | .ok (lastVa, need, s') =>
    if need = 0 then []
    else (s'.pagetable, u64 (lastVa + alignUp need)) ::
      if maxPre = 0 then [] else [(s'.pagetable, maxPre)]

/-- The heads of `alloc_from_new_block`. Its search reads those that `fitHeads` has listed. -/
def growHeads (s : HeapProc T) (need : Nat) : List (PageTable × Nat) :=
  match findHighest s loopBound s.firstFreeBlock 0 0 0 with
  | .error _ => []
  | .ok (maxVa, maxPre) => (s.pagetable, maxVa) :: restHeads s need maxVa maxPre

/-- The heads that `alloc_from_free_block` touches after its search. -/
def serveHeads (s : HeapProc T) (need : Nat) : List (PageTable × Nat) :=
  match findFit s need loopBound s.firstFreeBlock 0 with
  | .error _ => []
  | .ok none => growHeads s need
  | .ok (some (cur, pre)) =>
    (if capacityOf s cur = need then [] else [(s.pagetable, u64 (cur + alignUp need))]) ++
      if pre = 0 then [] else [(s.pagetable, pre)]

/-- The heads that `vm_malloc(n)` reads or writes, each with the page table at the time. -/
def mallocHeads (s : HeapProc T) (n : Nat) : List (PageTable × Nat) :=
  let need := u64 (n + headSize)
  match tryAllocFreeBlock s with
  | .error _ => []
  | .ok s' =>
    (if s.firstFreeBlock = 0 then [(s'.pagetable, s.heapTop)] else []) ++
      (fitHeads s' need loopBound s'.firstFreeBlock).map (fun va => (s'.pagetable, va)) ++
      serveHeads s' need

def PageMapped (pt : PageTable) (va : Nat) : Prop :=
  va < MAXVA ∧ (pt.entry (va / PGSIZE)).v = true ∧
    ((pt.entry (va / PGSIZE)).perm.r = true ∨ (pt.entry (va / PGSIZE)).perm.w = true)

def HeadMapped (pt : PageTable) (va : Nat) : Prop :=
  PageMapped pt va ∧ va % PGSIZE + headSize ≤ PGSIZE

instance PageMapped.decidable (pt : PageTable) (va : Nat) : Decidable (PageMapped pt va) :=
  inferInstanceAs (Decidable (_ ∧ _ ∧ _))

instance HeadMapped.decidable (pt : PageTable) (va : Nat) : Decidable (HeadMapped pt va) :=
  inferInstanceAs (Decidable (_ ∧ _))

/-- Serving `n` bytes from an empty heap leaves room for the head of the rest in the last page,
or no rest. -/
def RoomForHead (n : Nat) : Prop :=
  u64 (n + headSize) = PGSIZE ∨ (u64 (n + headSize) - 1) % PGSIZE + 1 + headSize ≤ PGSIZE

/-! ## An empty heap -/

structure Space.HeapEmpty (c : Space) : Prop where
  top : c.heapTop = USER_FREE_ADDRESS_START
  bottom : c.heapBottom = USER_FREE_ADDRESS_START
  reclaimed : c.freePages = []
  region : c.mappedInfo 3 = ⟨USER_FREE_ADDRESS_START, 0, .heap⟩

structure HeapUser.Fresh (u : HeapUser T) : Prop where
  empty : u.space.HeapEmpty
  first : u.firstFreeBlock = 0

/-- The first `vm_malloc(n)` touches heads on mapped pages only. -/
def HeapUser.HeadsMapped (u : HeapUser T) (n : Nat) : Prop :=
  ∀ t ∈ mallocHeads u.proc n, HeadMapped t.1 t.2

section

variable {s s' : Pmm T} {c c' : Space} {trapSec : Nat}

theorem initSpace_heapEmpty {pt : PageTable} {trapframe userStack : Nat}
    (h : initSpace s trapSec pt trapframe userStack = .ok (s', c)) : c.HeapEmpty := by
  simp only [initSpace, bind_eq_ok] at h
  obtain ⟨-, -, -, -, -, -, -, ⟨⟩⟩ := h
  exact ⟨rfl, rfl, rfl, rfl⟩

theorem recordRegion_heapEmpty {va : Nat} {segType : SegType} (hc : c.HeapEmpty)
    (h : recordRegion c va segType = .ok c') : c'.HeapEmpty := by
  unfold recordRegion at h
  split at h
  · cases h
  · rename_i j hj
    cases h
    have hzero : (c.mappedInfo j).va = 0 := by simpa using find?_some hj
    -- the heap region has an address, so it is not the entry taken
    have hne : (3 : Nat) ≠ j := by
      rintro rfl
      rw [hc.region] at hzero
      cases hzero
    exact ⟨hc.top, hc.bottom, hc.reclaimed, (update_of_ne hne _ _).trans hc.region⟩

theorem loadSegment_heapEmpty {ph : ElfProgHeader} (hc : c.HeapEmpty)
    (h : loadSegment s c ph = .ok (s', c')) : c'.HeapEmpty := by
  unfold loadSegment at h
  split at h
  · cases h
    exact hc
  split at h
  · cases h
  simp only [bind_eq_ok] at h
  obtain ⟨⟨dest, s1, pt⟩, -, h⟩ := h
  split at h
  · cases h
  split at h
  · cases h
  · simp only [bind_eq_ok] at h
    obtain ⟨c1, hrec, h⟩ := h
    cases h
    have hmapped : ({ c with pagetable := pt } : Space).HeapEmpty :=
      ⟨hc.top, hc.bottom, hc.reclaimed, hc.region⟩
    exact recordRegion_heapEmpty hmapped hrec

theorem elfLoad_heapEmpty : ∀ (phs : List ElfProgHeader) (s : Pmm T) (c : Space), c.HeapEmpty →
    elfLoad s c phs = .ok (s', c') → c'.HeapEmpty := by
  intro phs
  induction phs with
  | nil =>
    intro s c hc h
    cases h
    exact hc
  | cons ph phs ih =>
    intro s c hc h
    simp only [elfLoad, bind_eq_ok] at h
    obtain ⟨⟨s1, c1⟩, h1, h⟩ := h
    exact ih s1 c1 (loadSegment_heapEmpty hc h1) h

theorem HeapUser.boot_fresh {u : HeapUser T} {phs : List ElfProgHeader}
    (h : HeapUser.boot s trapSec phs = .ok u) : u.Fresh := by
  simp only [HeapUser.boot, allocProcessSpace, bind_eq_ok, pure_eq_ok, Except.ok.injEq] at h
  obtain ⟨⟨s1, c1⟩, ⟨_, -, _, -, _, -, _, -, _, -, _, -, _, -, _, -, ⟨s2, c2⟩, hinit, _, -, h1⟩,
    ⟨s3, c3⟩, hload, rfl⟩ := h
  have hc1 : c1.HeapEmpty := by
    split at h1
    · cases h1
    · cases h1
      exact initSpace_heapEmpty hinit
  exact ⟨elfLoad_heapEmpty phs s1 c1 hc1 hload, rfl⟩

theorem HeapUser.exec_heapEmpty {u u' : HeapUser T} {phs : List ElfProgHeader}
    (h : u.exec trapSec phs = .ok u') :
    u'.space.HeapEmpty ∧ u'.firstFreeBlock = u.firstFreeBlock := by
  simp only [HeapUser.exec, execClean, bind_eq_ok] at h
  obtain ⟨⟨s1, c1⟩, ⟨_, -, _, -, _, -, _, -, _, -, hinit⟩, ⟨s2, c2⟩, hload, h⟩ := h
  cases h
  exact ⟨elfLoad_heapEmpty phs s1 c1 (initSpace_heapEmpty hinit) hload, rfl⟩

end

/-! ## The first request -/

section

variable {s s' : HeapProc T} {va need n : Nat}

structure Grown (s s' : HeapProc T) : Prop where
  top_le : s.heapTop ≤ s'.heapTop
  top_mod : s'.heapTop % PGSIZE = 0
  kept : ∀ x, PageMapped s.pagetable x → PageMapped s'.pagetable x
  added : ∀ x, s.heapTop ≤ x → x < s'.heapTop → PageMapped s'.pagetable x

omit [RefTable T] in
theorem Grown.trans {s'' : HeapProc T} (h : Grown s s') (h' : Grown s' s'') : Grown s s'' := by
  constructor
  · exact h.top_le.trans h'.top_le
  · exact h'.top_mod
  · intro x hx
    exact h'.kept x (h.kept x hx)
  · intro x hlo hhi
    by_cases hx : x < s'.heapTop
    · exact h'.kept x (h.added x hlo hx)
    · exact h'.added x (by omega) hhi

theorem addHeapPage_grown (htop : s.heapTop % PGSIZE = 0) (h : addHeapPage s = .ok (va, s')) :
    va = s.heapTop ∧ s'.heapTop = s.heapTop + PGSIZE ∧ Grown s s' := by
  simp only [addHeapPage, bind_eq_ok] at h
  obtain ⟨⟨page, pmm1⟩, -, h⟩ := h
  split at h
  · cases h
  simp only [bind_eq_ok] at h
  obtain ⟨⟨pmm2, pt⟩, hmap, rfl, ⟨⟩⟩ := h
  obtain ⟨-, hlt, hent⟩ := userVmMap_entry htop hmap
  have htop' : u64 (s.heapTop + PGSIZE) = s.heapTop + PGSIZE := by
    apply u64_of_lt
    unfold MAXVA at hlt
    unfold PGSIZE
    omega
  have hnew : ∀ x, x < MAXVA → x / PGSIZE = s.heapTop / PGSIZE → PageMapped pt x := by
    intro x hx hpage
    have he : pt.entry (x / PGSIZE) = .leaf page (protToType true true false true) := by
      rw [hent, if_pos hpage]
    exact ⟨hx, by rw [he]; rfl, .inl (by rw [he]; rfl)⟩
  refine ⟨rfl, htop', ?_, ?_, ?_, ?_⟩
  · dsimp only
    omega
  · dsimp only
    rw [htop']
    unfold PGSIZE at *
    omega
  · intro x hx
    by_cases hpage : x / PGSIZE = s.heapTop / PGSIZE
    · exact hnew x hx.1 hpage
    · rwa [PageMapped, hent, if_neg hpage]
  · intro x hlo hhi
    have hhi' : x < s.heapTop + PGSIZE := htop' ▸ hhi
    apply hnew x
    · unfold MAXVA PGSIZE at *
      omega
    · unfold PGSIZE at *
      omega

theorem growHeap_grown {lastVa need' : Nat} : ∀ (fuel : Nat) (s : HeapProc T) (need : Nat),
    s.heapTop % PGSIZE = 0 → 0 < need → growHeap fuel s need = .ok (lastVa, need', s') →
    lastVa = s.heapTop + ((need - 1) / PGSIZE - 1) * PGSIZE ∧ s'.heapTop = lastVa + PGSIZE ∧
      need' = (need - 1) % PGSIZE + 1 ∧ Grown s s' := by
  intro fuel
  induction fuel with
  | zero =>
    intro s need htop hpos h
    cases h
  | succ fuel ih =>
    intro s need htop hpos h
    rw [growHeap, bind_eq_ok] at h
    obtain ⟨⟨va, s1⟩, hadd, h⟩ := h
    obtain ⟨rfl, htop1, hgrown⟩ := addHeapPage_grown htop hadd
    by_cases hbig : PGSIZE < need
    · simp only [if_pos hbig] at h
      by_cases hmore : PGSIZE < need - PGSIZE
      · rw [if_pos hmore] at h
        obtain ⟨hlast, htop', hneed, hgrown'⟩ := ih s1 (need - PGSIZE) hgrown.top_mod (by omega) h
        refine ⟨?_, htop', ?_, hgrown.trans hgrown'⟩
        · rw [hlast, htop1]
          unfold PGSIZE at *
          omega
        · rw [hneed]
          unfold PGSIZE at *
          omega
      · simp only [if_neg hmore, pure_eq_ok, Except.ok.injEq, Prod.mk.injEq] at h
        obtain ⟨rfl, rfl, rfl⟩ := h
        refine ⟨?_, htop1, ?_, hgrown⟩ <;> unfold PGSIZE at * <;> omega
    · simp only [if_neg hbig] at h
      cases h
      refine ⟨?_, htop1, ?_, hgrown⟩ <;> unfold PGSIZE at * <;> omega

omit [RefTable T] in
theorem headAt_ok_of_setCapacity {v : Nat} (h : setCapacity s va v = .ok s') :
    headAt s va = .ok (userVaToPa s.pagetable va) ∧
      s' = s.withMem (writeLE s.pmm.mem (userVaToPa s.pagetable va) 8 v) := by
  unfold setCapacity headAt at h
  split at h
  · cases h
  · rename_i hpa
    cases h
    exact ⟨if_neg hpa, rfl⟩

omit [RefTable T] in
theorem setNext_inv {v : Nat} (h : setNext s va v = .ok s') :
    s' = s.withMem (writeLE s.pmm.mem (userVaToPa s.pagetable va + 8) 8 v) := by
  unfold setNext headAt at h
  split at h
  · cases h
  · cases h
    rfl

structure OnePage (s : HeapProc T) (va : Nat) : Prop where
  first : s.firstFreeBlock = va
  pos : va ≠ 0
  head : ∃ pa, headAt s va = .ok pa
  capacity : capacityOf s va = PGSIZE
  next : nextOf s va = 0

theorem tryAllocFreeBlock_one (hfirst : s.firstFreeBlock = 0) (htop : s.heapTop % PGSIZE = 0)
    (hpos : s.heapTop ≠ 0) (h : tryAllocFreeBlock s = .ok s') :
    OnePage s' s.heapTop ∧ PageMapped s'.pagetable s.heapTop ∧ s'.heapTop % PGSIZE = 0 := by
  simp only [tryAllocFreeBlock, if_pos hfirst, bind_eq_ok] at h
  obtain ⟨⟨va, s1⟩, hadd, s2, hcap, s3, hnext, ⟨⟩⟩ := h
  obtain ⟨rfl, htop1, hgrown⟩ := addHeapPage_grown htop hadd
  have hmapped : PageMapped s1.pagetable s.heapTop :=
    hgrown.added _ le_rfl (by rw [htop1]; exact Nat.lt_add_of_pos_right (by decide))
  obtain ⟨hhead, rfl⟩ := headAt_ok_of_setCapacity hcap
  obtain rfl := setNext_inv hnext
  refine ⟨⟨rfl, hpos, ⟨_, hhead⟩, ?_, ?_⟩, hmapped, hgrown.top_mod⟩
  · simp only [capacityOf, HeapProc.withMem]
    rw [readLE_writeLE_of_disjoint (by omega), readLE_writeLE_self _ _ (by decide)]
  · simp only [nextOf, HeapProc.withMem]
    rw [readLE_writeLE_self _ _ (by decide)]

omit [RefTable T] in
theorem OnePage.fitHeads_eq (h : OnePage s va) : fitHeads s need loopBound va = [va] := by
  rw [show loopBound = (2 ^ 64 - 2) + 1 + 1 from rfl, fitHeads, if_neg h.pos, h.next]
  split
  · rfl
  · rw [fitHeads, if_pos rfl]

omit [RefTable T] in
theorem OnePage.findFit_eq (h : OnePage s va) :
    findFit s need loopBound va 0 = .ok (if need ≤ PGSIZE then some (va, 0) else none) := by
  obtain ⟨pa, hpa⟩ := h.head
  rw [show loopBound = (2 ^ 64 - 2) + 1 + 1 from rfl, findFit, if_neg h.pos, hpa, ok_bind,
    h.capacity]
  split
  · rfl
  · rw [h.next, findFit, if_pos rfl]

omit [RefTable T] in
theorem OnePage.findHighest_eq (h : OnePage s va) :
    findHighest s loopBound va 0 0 0 = .ok (va, 0) := by
  obtain ⟨pa, hpa⟩ := h.head
  rw [show loopBound = (2 ^ 64 - 2) + 1 + 1 from rfl, findHighest, if_neg h.pos, hpa, ok_bind,
    if_pos (Nat.pos_of_ne_zero h.pos), h.next, findHighest, if_pos rfl]

theorem headMapped_of_offset {pt : PageTable} {off : Nat} (hmod : va % PGSIZE = 0)
    (h : PageMapped pt va) (hoff : off + headSize ≤ PGSIZE) : HeadMapped pt (u64 (va + off)) := by
  obtain ⟨hlt, hv⟩ := h
  have hval : u64 (va + off) = va + off := by
    apply u64_of_lt
    unfold MAXVA at hlt
    unfold PGSIZE at hoff
    omega
  have hpage : (va + off) / PGSIZE = va / PGSIZE := by
    unfold headSize PGSIZE at *
    omega
  rw [hval]
  refine ⟨⟨?_, ?_⟩, ?_⟩
  · unfold MAXVA headSize PGSIZE at *
    omega
  · rwa [hpage]
  · unfold headSize PGSIZE at *
    omega

theorem alignUp_room (h : need + headSize ≤ PGSIZE) : alignUp need + headSize ≤ PGSIZE := by
  unfold alignUp u64
  unfold headSize PGSIZE at *
  split
  · omega
  · exact h

theorem restHeads_mapped (hone : OnePage s va) (htop : s.heapTop % PGSIZE = 0)
    (hbig : PGSIZE < need) (hlt : need < 2 ^ 64)
    (hroom : (need - 1) % PGSIZE + 1 + headSize ≤ PGSIZE) :
    ∀ t ∈ restHeads s need va 0, HeadMapped t.1 t.2 := by
  have hmissing : u64 (need + (2 ^ 64 - capacityOf s va)) = need - PGSIZE := by
    rw [hone.capacity]
    unfold u64 PGSIZE at *
    omega
  unfold restHeads
  rw [hmissing]
  dsimp only
  split
  · simp
  · rename_i lastVa need' s1 hgrown
    simp only [bind_eq_ok] at hgrown
    obtain ⟨s2, hnext, s3, hcap, hgrow⟩ := hgrown
    obtain rfl := setNext_inv hnext
    obtain ⟨-, rfl⟩ := headAt_ok_of_setCapacity hcap
    obtain ⟨hlast, htop', hneed, hgrown⟩ :=
      growHeap_grown _ _ (need - PGSIZE) (by exact htop) (by omega) hgrow
    have hpos : lastVa < s1.heapTop := by
      rw [htop']
      exact Nat.lt_add_of_pos_right (by decide)
    have hmapped : PageMapped s1.pagetable lastVa :=
      hgrown.added _ (by rw [hlast]; exact Nat.le_add_right _ _) hpos
    have hmod : lastVa % PGSIZE = 0 := by
      have htm := hgrown.top_mod
      unfold PGSIZE at *
      omega
    have hroom' : need' + headSize ≤ PGSIZE := by
      rw [hneed]
      unfold PGSIZE at *
      omega
    split
    · simp
    · simp only [if_true, mem_singleton, forall_eq]
      exact headMapped_of_offset hmod hmapped (alignUp_room hroom')

theorem serveHeads_mapped (hone : OnePage s va) (hmod : va % PGSIZE = 0)
    (hmapped : PageMapped s.pagetable va) (htop : s.heapTop % PGSIZE = 0) (hlt : need < 2 ^ 64)
    (hroom : need = PGSIZE ∨ (need - 1) % PGSIZE + 1 + headSize ≤ PGSIZE) :
    ∀ t ∈ serveHeads s need, HeadMapped t.1 t.2 := by
  have hhead : HeadMapped s.pagetable va := ⟨hmapped, by rw [hmod]; decide⟩
  rw [serveHeads, hone.first, hone.findFit_eq]
  by_cases hfit : need ≤ PGSIZE
  · simp only [if_pos hfit, hone.capacity, if_true, append_nil]
    split
    · simp
    · rename_i hne
      have hsmall : need + headSize ≤ PGSIZE := by
        rcases hroom with hroom | hroom
        · exact absurd hroom.symm hne
        · unfold headSize PGSIZE at *
          omega
      simp only [mem_singleton, forall_eq]
      exact headMapped_of_offset hmod hmapped (alignUp_room hsmall)
  · simp only [if_neg hfit]
    rw [growHeads, hone.first, hone.findHighest_eq]
    intro t ht
    rcases mem_cons.mp ht with rfl | ht
    · exact hhead
    · exact restHeads_mapped hone htop (by omega) hlt (hroom.resolve_left (by omega)) t ht

theorem HeapUser.Fresh.headsMapped {u : HeapUser T} (h : u.Fresh) (hn : RoomForHead n) :
    u.HeadsMapped n := by
  have hfirst : u.proc.firstFreeBlock = 0 := h.first
  have htop : u.proc.heapTop = USER_FREE_ADDRESS_START := h.empty.top
  have hmod : u.proc.heapTop % PGSIZE = 0 := by
    rw [htop]
    decide
  unfold HeapUser.HeadsMapped mallocHeads
  dsimp only
  split
  · simp
  · rename_i s1 htry
    obtain ⟨hone, hmapped, hmod1⟩ := tryAllocFreeBlock_one hfirst hmod (by rw [htop]; decide) htry
    have hhead : HeadMapped s1.pagetable u.proc.heapTop := ⟨hmapped, by rw [hmod]; decide⟩
    rw [if_pos hfirst, hone.first, hone.fitHeads_eq]
    intro t ht
    simp only [mem_append, map_cons, map_nil, mem_singleton] at ht
    rcases ht with (rfl | rfl) | ht
    · exact hhead
    · exact hhead
    · exact serveHeads_mapped hone hmod hmapped hmod1 (Nat.mod_lt _ (by decide)) hn t ht

end

/-! ## Exec -/

/-- After `exec_clean` and the load of the new image the heap is that of a freshly booted
process, whose first request touches heads on mapped pages only, exactly if the old image left
`first_free_block` at 0. -/
theorem exec_heap_fresh_iff {u u' : HeapUser T} {trapSec : Nat} {phs : List ElfProgHeader}
    (h : u.exec trapSec phs = .ok u') :
    (u'.Fresh ∧ ∀ n, RoomForHead n → u'.HeadsMapped n) ↔ u.firstFreeBlock = 0 := by
  obtain ⟨hempty, hfirst⟩ := HeapUser.exec_heapEmpty h
  rw [← hfirst]
  constructor
  · rintro ⟨hfresh, -⟩
    exact hfresh.first
  · intro hzero
    have hfresh : u'.Fresh := ⟨hempty, hzero⟩
    exact ⟨hfresh, fun n hn => hfresh.headsMapped hn⟩

/-- The states that a process reaches from its start by calls that use its heap. -/
def HeapUser.Reachable (u : HeapUser T) : Prop :=
  ∃ kernelEnd memSize mem refs trapSec phs pmm u₀,
    pmmInit kernelEnd memSize mem refs = .ok pmm ∧ HeapUser.boot pmm trapSec phs = .ok u₀ ∧
      Reaches HeapUser.step (fun _ _ => True) u₀ u

/-- A process on a small machine makes the calls and then executes a new image; `P` holds of the
states before and after. -/
abbrev ExecRun (calls : List HeapCall) (P : HeapUser RefList → HeapUser RefList → Prop) : Prop :=
  ∃ pmm, pmmInit 0x80006000 (64 * PGSIZE) (fun _ => 0) ([] : RefList) = .ok pmm ∧
    ∃ u₀, HeapUser.boot pmm 0x80001000 [segmentAt 0x10000 5] = .ok u₀ ∧
    ∃ u, Runs HeapUser.step (fun _ _ => True) u₀ calls u ∧
    ∃ u', u.exec 0x80001000 [segmentAt 0x10000 5] = .ok u' ∧ P u u'

theorem ExecRun.run {calls : List HeapCall} {P : HeapUser RefList → HeapUser RefList → Prop}
    (h : ExecRun calls P) : ∃ u u' : HeapUser RefList, u.Reachable ∧
      u.exec 0x80001000 [segmentAt 0x10000 5] = .ok u' ∧ P u u' := by
  obtain ⟨pmm, hpmm, u0, hboot, u, hrun, u', hexec, hp⟩ := h
  exact ⟨u, u', ⟨_, _, _, _, _, _, pmm, u0, hpmm, hboot, hrun.reaches .start⟩, hexec, hp⟩

/-- An image that only used whole pages leaves an empty heap. -/
theorem exec_heap_fresh_iff_pages : ∃ u u' : HeapUser RefList, u.Reachable ∧
    u.exec 0x80001000 [segmentAt 0x10000 5] = .ok u' ∧ u.space.heapTop ≠ u'.space.heapTop ∧
      u'.Fresh ∧ ∀ n, RoomForHead n → u'.HeadsMapped n := by
  have hrun : ExecRun [.allocatePage, .allocatePage]
      (fun u u' => u.firstFreeBlock = 0 ∧ u.space.heapTop ≠ u'.space.heapTop) := by decide +kernel
  obtain ⟨u, u', hreach, hexec, hzero, hne⟩ := hrun.run
  exact ⟨u, u', hreach, hexec, hne, (exec_heap_fresh_iff hexec).mpr hzero⟩

/-- After one `vm_malloc` in the old image the new one starts with a free list in a page that is
gone: its first `vm_malloc` looks for a head on an unmapped page. -/
theorem exec_keeps_free_list : ∃ u u' : HeapUser RefList, u.Reachable ∧
    u.exec 0x80001000 [segmentAt 0x10000 5] = .ok u' ∧ ¬ u'.Fresh ∧ RoomForHead 100 ∧
      ¬ u'.HeadsMapped 100 := by
  have hrun : ExecRun [.malloc 100] (fun _ u' => u'.firstFreeBlock ≠ 0 ∧
      ¬ ∀ t ∈ mallocHeads u'.proc 100, HeadMapped t.1 t.2) := by decide +kernel
  obtain ⟨u, u', hreach, hexec, hne, hheads⟩ := hrun.run
  exact ⟨u, u', hreach, hexec, fun hfresh => hne hfresh.first, .inr (by decide), hheads⟩

end CabbagePKE
