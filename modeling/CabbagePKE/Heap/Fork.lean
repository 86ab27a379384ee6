import CabbagePKE.Heap.Release

/-!
# The heap of a forked process

`do_fork` turns the reclaimed addresses of the parent into an array of flags
and shares the pages that are not flagged. The array is on the stack and only
its first eight words are cleared, so that a page of the heap from the eighth
on is shared if the word for it happened to be zero.
-/

namespace CabbagePKE

open Lib

variable {T : Type} [RefTable T]

def Pte.frame (e : Pte) : Nat := e.pa / PGSIZE

def MappedRegion.Spans (r : MappedRegion) (v : Nat) : Prop :=
  r.va / PGSIZE ≤ v ∧ v ≤ (r.va + r.npages * PGSIZE - 1) / PGSIZE

/-- A parent with a heap of at most `MAX_HEAP_PAGES` pages, some of them
reclaimed, and its code and data elsewhere. -/
structure Space.HeapForkable (c : Space) : Prop where
  pages : c.PageHeap
  few : (c.mappedInfo 3).npages ≤ MAX_HEAP_PAGES
  four_le : 4 ≤ c.totalMappedRegion
  single : ∀ i, i ≠ 3 → (c.mappedInfo i).segType ≠ .heap
  apart : ∀ i, (c.mappedInfo i).segType = .code ∨ (c.mappedInfo i).segType = .data →
    ∀ v, (c.mappedInfo i).Spans v → ∀ va, c.HeapPage va → va / PGSIZE ≠ v

/-- The child maps each page of the parent's heap that is not reclaimed, to the
parent's frame for it, and none of the others. -/
structure ForkedHeap (parent child : Space) : Prop where
  live : ∀ va, parent.HeapPage va → va ∉ parent.freePages →
    (child.pagetable.entry (va / PGSIZE)).v = true ∧
      (child.pagetable.entry (va / PGSIZE)).frame = (parent.pagetable.entry (va / PGSIZE)).frame
  reclaimed : ∀ va ∈ parent.freePages, (child.pagetable.entry (va / PGSIZE)).v = false

/-! ## Pages that are left alone -/

section

variable {s s' : Pmm T} {c c' parent : Space} {pt pt' : PageTable} {va size pa v : Nat}
  {perm : Perm} {r : MappedRegion} {garbage : Nat → Bool}

theorem mapPages_outside {ret : Int} (h : mapPages s pt va size pa perm = .ok (ret, s', pt'))
    (hv : ¬ (va / PGSIZE ≤ v ∧ v ≤ (va + size - 1) / PGSIZE)) : pt'.entry v = pt.entry v := by
  obtain ⟨hmod, hdiv, -⟩ := pages_of_va va
  obtain ⟨-, -, k, hk, -, hent⟩ := mapPagesFrom_entry _ _ _ _ _ hmod h
  rw [(hent v).2, hdiv, if_neg (by omega)]

theorem forkDataFrom_outside : ∀ (n va : Nat) (s : Pmm T) (pt : PageTable),
    forkDataFrom parent.pagetable n va s pt = .ok (s', pt') →
    ∀ v, ¬ (va / PGSIZE ≤ v ∧ v ≤ (va + n * PGSIZE - 1) / PGSIZE) → pt'.entry v = pt.entry v := by
  intro n
  induction n with
  | zero =>
    intro va s pt h v _
    cases h
    rfl
  | succ n ih =>
    intro va s pt h v hv
    simp only [forkDataFrom, bind_eq_ok] at h
    obtain ⟨⟨page, s1⟩, -, s2, -, ⟨ret, s3, pt3⟩, hmap, h⟩ := h
    rw [ih _ _ _ h v (by unfold PGSIZE at *; omega),
      mapPages_outside hmap (by unfold PGSIZE at *; omega)]

theorem forkRegion_outside (h : forkRegion parent garbage s c r = .ok (s', c'))
    (hheap : r.segType ≠ .heap)
    (hv : r.segType = .code ∨ r.segType = .data → ¬ r.Spans v) :
    c'.pagetable.entry v = c.pagetable.entry v := by
  rcases forkRegion_inv h with ⟨-, rfl, -⟩ | ⟨-, rfl, -⟩ | ⟨hr, -⟩ | ⟨hr, pt, hmap, hadd⟩ |
    ⟨hr, pt, hdata, hadd⟩
  · rfl
  · rfl
  · exact absurd hr hheap
  · rw [addRegion_eq hadd]
    exact mapPages_outside (userVmMap_inv hmap) (hv (.inl hr))
  · rw [addRegion_eq hadd]
    exact forkDataFrom_outside _ _ _ _ hdata v (hv (.inr hr))

theorem forkRegions_outside : ∀ (rs : List MappedRegion) (s : Pmm T) (c : Space),
    forkRegions parent garbage rs s c = .ok (s', c') →
    (∀ r ∈ rs, r.segType ≠ .heap ∧ (r.segType = .code ∨ r.segType = .data → ¬ r.Spans v)) →
    c'.pagetable.entry v = c.pagetable.entry v := by
  intro rs
  induction rs with
  | nil =>
    intro s c h _
    cases h
    rfl
  | cons r rs ih =>
    intro s c h hrs
    simp only [forkRegions, bind_eq_ok] at h
    obtain ⟨⟨s1, c1⟩, h1, h⟩ := h
    obtain ⟨hheap, hv⟩ := hrs r (by simp)
    rw [ih _ _ h (fun r' hr' => hrs r' (by simp [hr'])), forkRegion_outside h1 hheap hv]

theorem allocProcessSpace_below {free : List Nat} {trapSec : Nat} (hl : s.Listed free)
    (hk : KernelAt s.freeMemStartAddr trapSec)
    (h : allocProcessSpace s trapSec = .ok (s', c)) (hv : v < stackVpn) :
    (c.pagetable.entry v).v = false := by
  obtain ⟨tf, stk, dir, s1, free1, s2, pf, -, -, ⟨htf, -⟩, -, hinit, -⟩ :=
    allocProcessSpace_pages hl h
  obtain ⟨s3, pt3, s4, pt4, pt5, h3, h4, h5, rfl⟩ := initSpace_inv hinit
  obtain ⟨htfa, htflo, -⟩ := hl.managed tf htf
  obtain ⟨-, -, he3⟩ := userVmMap_entry (by decide) h3
  obtain ⟨-, -, he4⟩ := userVmMap_entry htfa h4
  obtain ⟨-, -, he5⟩ := userVmMap_entry hk.aligned h5
  have hbase := hk.base_le
  have hlo := hk.lt_lo
  have hstack : v ≠ (USER_STACK_TOP - PGSIZE) / PGSIZE := hv.ne
  have hcontext : v ≠ tf / PGSIZE := by
    unfold stackVpn USER_STACK_TOP KERN_BASE PGSIZE at *
    omega
  have hsystem : v ≠ trapSec / PGSIZE := by
    unfold stackVpn USER_STACK_TOP KERN_BASE PGSIZE at *
    omega
  rw [he5, if_neg hsystem, he4, if_neg hcontext, he3, if_neg hstack]
  simp [PageTable.entry, PageTable.empty, Pte.zero]

end

/-! ## The heap -/

section

variable {s s' : Pmm T} {c parent : Space} {pt pt' : PageTable} {va i : Nat} {garbage : Nat → Bool}

theorem forkHeapFrom_entry (hb : parent.heapBottom % PGSIZE = 0) :
    ∀ (is : List Nat) (s : Pmm T) (pt : PageTable),
      forkHeapFrom parent garbage is s pt = .ok (s', pt') →
      pt'.entry ((parent.heapBottom + i * PGSIZE) / PGSIZE)
        = if i ∈ is ∧ freeBlockFilter parent garbage i = false
          then Pte.cow (lookupPa parent.pagetable (parent.heapBottom + i * PGSIZE))
          else pt.entry ((parent.heapBottom + i * PGSIZE) / PGSIZE) := by
  intro is
  induction is with
  | nil =>
    intro s pt h
    cases h
    simp
  | cons j is ih =>
    intro s pt h
    rw [forkHeapFrom] at h
    split at h
    · cases h
    split at h
    · rename_i hflag
      rw [ih _ _ h]
      by_cases hij : i = j
      · rw [hij, hflag]
        simp
      · simp [hij]
    · rename_i hflag
      simp only [bind_eq_ok] at h
      obtain ⟨⟨s1, pt1⟩, hcow, h⟩ := h
      obtain ⟨-, -, hent⟩ := cowVmMap_entry hcow
      rw [ih _ _ h, hent]
      by_cases hij : i = j
      · rw [hij]
        simp [hflag]
      · have hne : (parent.heapBottom + i * PGSIZE) / PGSIZE
            ≠ (parent.heapBottom + j * PGSIZE) / PGSIZE := by
          unfold PGSIZE at *
          omega
        simp [hij, hne]

theorem Space.PageHeap.heapBlocks_eq (h : c.PageHeap) :
    heapBlocks c = List.range (c.mappedInfo 3).npages := by
  have htop := h.top
  unfold heapBlocks
  congr 1
  unfold PGSIZE at *
  omega

theorem Space.PageHeap.heapPage_iff (h : c.PageHeap) :
    c.HeapPage va ↔ ∃ i, i < (c.mappedInfo 3).npages ∧ va = c.heapBottom + i * PGSIZE := by
  rw [← h.mem_heapPages, Space.heapPages, List.mem_map]
  simp only [List.mem_range, eq_comm]

theorem Space.PageHeap.filter_iff (h : c.PageHeap) (garbage : Nat → Bool) (i : Nat) :
    freeBlockFilter c garbage i = true ↔
      c.heapBottom + i * PGSIZE ∈ c.freePages ∨ (8 ≤ i ∧ garbage i = true) := by
  have hb := h.bottom_mod
  have hindex : ∀ va, c.HeapPage va → filterIndex c va = (va - c.heapBottom) / PGSIZE := by
    rintro va ⟨hlo, hhi, -⟩
    have hmax := h.top_le
    unfold filterIndex u64 MAXVA at *
    congr 1
    omega
  have hany : c.freePages.any (fun va => filterIndex c va = i) = true ↔
      c.heapBottom + i * PGSIZE ∈ c.freePages := by
    rw [List.any_eq_true]
    constructor
    · rintro ⟨va, hva, heq⟩
      have hpage := (h.reclaimed va hva).1
      rw [decide_eq_true_eq, hindex va hpage] at heq
      obtain ⟨hlo, -, hmod⟩ := hpage
      have hva' : c.heapBottom + i * PGSIZE = va := by
        unfold PGSIZE at *
        omega
      rwa [hva']
    · intro hmem
      refine ⟨_, hmem, ?_⟩
      rw [decide_eq_true_eq, hindex _ (h.reclaimed _ hmem).1]
      unfold PGSIZE
      omega
  rw [freeBlockFilter, Bool.or_eq_true, Bool.and_eq_true, decide_eq_true_eq, hany]

theorem cow_frame (pa : Nat) : (Pte.cow pa).frame = pa / PGSIZE := by
  unfold Pte.frame Pte.cow Pte.leaf ROUNDDOWN PGSIZE
  simp only
  omega

theorem doForkSpace_heap {free : List Nat} {trapSec : Nat} (hl : s.Listed free)
    (hk : KernelAt s.freeMemStartAddr trapSec) (hp : parent.HeapForkable)
    (h : doForkSpace s trapSec parent garbage = .ok (s', c))
    (hi : i < (parent.mappedInfo 3).npages) :
    (freeBlockFilter parent garbage i = false →
      c.pagetable.entry ((parent.heapBottom + i * PGSIZE) / PGSIZE)
        = Pte.cow (lookupPa parent.pagetable (parent.heapBottom + i * PGSIZE))) ∧
    (freeBlockFilter parent garbage i = true →
      (c.pagetable.entry ((parent.heapBottom + i * PGSIZE) / PGSIZE)).v = false) := by
  have hpage : parent.HeapPage (parent.heapBottom + i * PGSIZE) :=
    hp.pages.heapPage_iff.mpr ⟨i, hi, rfl⟩
  simp only [doForkSpace, bind_eq_ok] at h
  obtain ⟨⟨s0, c0⟩, halloc, h⟩ := h
  rw [regions_eq hp.four_le] at h
  simp only [forkRegions, bind_eq_ok] at h
  obtain ⟨⟨s1, c1⟩, h1, ⟨s2, c2⟩, h2, ⟨s3, c3⟩, h3, ⟨s4, c4⟩, h4, h⟩ := h
  -- the other regions leave the pages of the heap alone
  have hother : ∀ j, j ≠ 3 → (parent.mappedInfo j).segType ≠ .heap ∧
      ((parent.mappedInfo j).segType = .code ∨ (parent.mappedInfo j).segType = .data →
        ¬ (parent.mappedInfo j).Spans ((parent.heapBottom + i * PGSIZE) / PGSIZE)) := by
    intro j hj
    refine ⟨hp.single j hj, fun hseg hspan => ?_⟩
    exact hp.apart j hseg _ hspan _ hpage rfl
  have hrest := forkRegions_outside (v := (parent.heapBottom + i * PGSIZE) / PGSIZE) _ _ _ h (by
    intro r hr
    obtain ⟨k, -, rfl⟩ := List.mem_map.mp hr
    exact hother (k + 4) (by omega))
  have hbefore : (c3.pagetable.entry ((parent.heapBottom + i * PGSIZE) / PGSIZE)).v = false := by
    rw [forkRegion_outside h3 (hother 2 (by decide)).1 (hother 2 (by decide)).2,
      forkRegion_outside h2 (hother 1 (by decide)).1 (hother 1 (by decide)).2,
      forkRegion_outside h1 (hother 0 (by decide)).1 (hother 0 (by decide)).2]
    refine allocProcessSpace_below hl hk halloc ?_
    have hfew := hp.few
    have hbottom := hp.pages.bottom
    rw [hbottom]
    unfold stackVpn USER_STACK_TOP USER_FREE_ADDRESS_START MAX_HEAP_PAGES PGSIZE at *
    omega
  have hheap : forkHeap s3 parent c3 garbage = .ok (s4, c4) := by
    rwa [forkRegion, hp.pages.kind] at h4
  obtain ⟨pt, hfrom, rfl⟩ := forkHeap_inv hheap
  have hent := forkHeapFrom_entry (i := i) hp.pages.bottom_mod _ _ _ hfrom
  have hmem : i ∈ heapBlocks parent := by
    rw [hp.pages.heapBlocks_eq]
    exact List.mem_range.mpr hi
  rw [hrest]
  rw [hent]
  constructor
  · intro hflag
    rw [if_pos ⟨hmem, hflag⟩]
  · intro hflag
    rwa [if_neg (by simp [hflag])]

/-- The child maps exactly the live pages of the heap if and only if the stack
held zero in the words that are not cleared, as far as they stand for live
pages. -/
theorem fork_heap_iff {free : List Nat} {trapSec : Nat} (hl : s.Listed free)
    (hk : KernelAt s.freeMemStartAddr trapSec) (hp : parent.HeapForkable)
    (h : doForkSpace s trapSec parent garbage = .ok (s', c)) :
    ForkedHeap parent c ↔ ∀ i, 8 ≤ i → i < (parent.mappedInfo 3).npages →
      parent.heapBottom + i * PGSIZE ∉ parent.freePages → garbage i = false := by
  constructor
  · intro hf i h8 hi hnot
    by_contra hg
    have hflag : freeBlockFilter parent garbage i = true :=
      (hp.pages.filter_iff garbage i).mpr (.inr ⟨h8, by simpa using hg⟩)
    have hinv := (doForkSpace_heap hl hk hp h hi).2 hflag
    have hpage := hp.pages.heapPage_iff.mpr ⟨i, hi, rfl⟩
    simp [(hf.live _ hpage hnot).1] at hinv
  · intro hg
    refine ⟨?_, ?_⟩
    · intro va hpage hnot
      obtain ⟨i, hi, rfl⟩ := hp.pages.heapPage_iff.mp hpage
      have hflag : freeBlockFilter parent garbage i = false := by
        rw [← Bool.not_eq_true, hp.pages.filter_iff garbage i]
        rintro (hmem | ⟨h8, hgarb⟩)
        · exact hnot hmem
        · simp [hg i h8 hi hnot] at hgarb
      rw [(doForkSpace_heap hl hk hp h hi).1 hflag, cow_frame,
        lookupPa_of_pageMapped (hp.pages.live _ hpage hnot)]
      exact ⟨rfl, rfl⟩
    · intro va hmem
      obtain ⟨i, hi, rfl⟩ := hp.pages.heapPage_iff.mp (hp.pages.reclaimed va hmem).1
      exact (doForkSpace_heap hl hk hp h hi).2 ((hp.pages.filter_iff garbage i).mpr (.inl hmem))

end

/-! ## Processes that used their heap -/

omit [RefTable T] in
theorem HeapUser.Sound.heapForkable {u : HeapUser T} (h : u.Sound)
    (hfew : (u.space.mappedInfo 3).npages ≤ MAX_HEAP_PAGES) : u.space.HeapForkable := by
  refine ⟨h.pages, hfew, h.regions.four_le, fun i hi3 => (h.regions.owned i hi3).1, ?_⟩
  intro i hseg v hspan
  have hi3 : i ≠ 3 := by
    rintro rfl
    rw [h.pages.kind] at hseg
    rcases hseg with hseg | hseg
    · cases hseg
    · cases hseg
  obtain ⟨-, ⟨-, hstack⟩ | ⟨h1, -, hbesides, -⟩⟩ := h.regions.owned i hi3
  · rw [hstack] at hseg
    rcases hseg with hseg | hseg
    · cases hseg
    · cases hseg
  · unfold MappedRegion.Spans at hspan
    rw [h1, Nat.one_mul] at hspan
    exact (hbesides v hspan).2

/-- A process on a small machine makes the calls and forks; `P` holds of the two processes. -/
abbrev HeapForkRun (calls : List HeapCall) (garbage : Nat → Bool) (P : Space → Space → Prop) :
    Prop :=
  ReleaseRun calls fun u => (u.space.mappedInfo 3).npages ≤ MAX_HEAP_PAGES ∧
    u.pmm.Listed (u.pmm.freeList 64) ∧ u.pmm.freeMemStartAddr = 0x80006000 ∧
    ∃ r, doForkSpace u.pmm 0x80001000 u.space garbage = .ok r ∧ P u.space r.2

theorem HeapForkRun.run {calls : List HeapCall} {garbage : Nat → Bool} {P : Space → Space → Prop}
    (h : HeapForkRun calls garbage P) :
    ∃ (s s' : Pmm RefList) (free : List Nat) (parent child : Space), s.Listed free ∧
      KernelAt s.freeMemStartAddr 0x80001000 ∧ parent.HeapForkable ∧
      doForkSpace s 0x80001000 parent garbage = .ok (s', child) ∧ P parent child := by
  obtain ⟨pmm, hpmm, u0, hboot, u, hrun, hfew, hlisted, hstart, ⟨s', child⟩, hfork, hp⟩ := h
  obtain ⟨free, hl⟩ := pmmInit_listed hpmm
  have hsound : u.Sound :=
    Reaches.invariant HeapUser.Sound (HeapUser.boot_sound hl hboot)
      (fun _ _ _ hi hok hs => hi.step hok hs) (hrun.reaches .start)
  refine ⟨u.pmm, s', _, u.space, child, hlisted, ?_, hsound.heapForkable hfew, hfork, hp⟩
  rw [hstart]
  exact ⟨by decide, by decide, by decide⟩

def takePages (n : Nat) : List HeapCall := List.replicate n .allocatePage

/-- A heap of ten pages, the fourth and the last one reclaimed: garbage in the
word of the last page does no harm. -/
theorem fork_heap_iff_reclaimed :
    ∃ (s s' : Pmm RefList) (free : List Nat) (parent child : Space), s.Listed free ∧
      parent.HeapForkable ∧ parent.freePages = [0x409000, 0x403000] ∧
      doForkSpace s 0x80001000 parent (fun i => i == 9) = .ok (s', child) ∧
      ForkedHeap parent child := by
  have hrun : HeapForkRun (takePages 10 ++ [.freePage 0x403000, .freePage 0x409000])
      (fun i => i == 9) (fun parent _ => (parent.mappedInfo 3).npages = 10 ∧
        parent.heapBottom = 0x400000 ∧ parent.freePages = [0x409000, 0x403000]) := by decide +kernel
  obtain ⟨s, s', free, parent, child, hl, hk, hp, hfork, hn, hb, hfree⟩ := HeapForkRun.run hrun
  refine ⟨s, s', free, parent, child, hl, hp, hfree, hfork, (fork_heap_iff hl hk hp hfork).mpr ?_⟩
  intro i h8 hi hnot
  rw [hb, hfree] at hnot
  have hi9 : i ≠ 9 := by
    rintro rfl
    exact hnot (by decide)
  simpa using hi9

/-- A heap of nine pages, none of them reclaimed: with garbage in the word of
the last page the child does not get it. -/
theorem fork_drops_heap_page :
    ∃ (s s' : Pmm RefList) (free : List Nat) (parent child : Space), s.Listed free ∧
      KernelAt s.freeMemStartAddr 0x80001000 ∧ parent.HeapForkable ∧ parent.freePages = [] ∧
      doForkSpace s 0x80001000 parent (fun i => i == 8) = .ok (s', child) ∧
      parent.HeapPage 0x408000 ∧ (child.pagetable.entry 0x408).v = false ∧
      ¬ ForkedHeap parent child := by
  have hrun : HeapForkRun (takePages 9) (fun i => i == 8) (fun parent child =>
      parent.heapBottom = 0x400000 ∧ parent.heapTop = 0x409000 ∧ parent.freePages = [] ∧
        (child.pagetable.entry 0x408).v = false) := by decide +kernel
  obtain ⟨s, s', free, parent, child, hl, hk, hp, hfork, hb, htop, hfree, hv⟩ :=
    HeapForkRun.run hrun
  have hpage : parent.HeapPage 0x408000 := by
    refine ⟨?_, ?_, by decide⟩
    · rw [hb]
      decide
    · rw [htop]
      decide
  refine ⟨s, s', free, parent, child, hl, hk, hp, hfree, hfork, hpage, hv, fun hf => ?_⟩
  have hlive := (hf.live 0x408000 hpage (by rw [hfree]; simp)).1
  simp [show 0x408000 / PGSIZE = 0x408 from rfl, hv] at hlive

end CabbagePKE
