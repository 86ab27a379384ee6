import CabbagePKE.Heap.Pages
import CabbagePKE.Vm.Plain
import CabbagePKE.Vm.Takes

/-!
# Releasing the heap at `exec`

`proc_clean_pagetable` takes the number of heap pages from the region and their
frames from the page table, and passes each frame to `free_page`, which panics on
the `NULL` that `lookup_pa` returns for a reclaimed page. The heap is released
exactly if no page is reclaimed and every page got a frame when it was mapped.
-/

namespace CabbagePKE

open Lib Function List

variable {T : Type} [RefTable T]

/-! ## The range of the allocator -/

section

variable {s s' s'' : Pmm T} {pt pt' : PageTable} {va pa : Nat} {perm : Perm}

def SameRange (s s' : Pmm T) : Prop :=
  s'.freeMemStartAddr = s.freeMemStartAddr ∧ s'.freeMemEndAddr = s.freeMemEndAddr

omit [RefTable T] in
theorem SameRange.trans (h : SameRange s s') (h' : SameRange s' s'') : SameRange s s'' :=
  ⟨h'.1.trans h.1, h'.2.trans h.2⟩

theorem allocPage_sameRange {p : Nat} (h : allocPage s = .ok (p, s')) : SameRange s s' := by
  simp only [allocPage, bind_eq_ok] at h
  obtain ⟨refs, -, h⟩ := h
  cases h
  exact ⟨rfl, rfl⟩

theorem TookTables.sameRange (h : TookTables s s') : SameRange s s' := by
  induction h with
  | refl => exact ⟨rfl, rfl⟩
  | null _ ha ih => exact ih.trans (allocPage_sameRange ha)
  | @table _ s2 _ _ ha _ ih =>
    have hr : SameRange s s2 := ih.trans (allocPage_sameRange ha)
    exact hr

/-- The pages that `PGSIZE` bytes from `va` on touch: one, or two if `va` is not
the start of a page. -/
def Touched (va v : Nat) : Prop := va / PGSIZE ≤ v ∧ v ≤ (va + PGSIZE - 1) / PGSIZE

theorem userVmMap_kept (h : userVmMap s pt va PGSIZE pa perm = .ok (s', pt')) :
    SameRange s s' ∧ va < MAXVA ∧ pt'.entry (va / PGSIZE) = Pte.leaf pa perm ∧
      (∀ v, Touched va v → (pt'.entry v).v = true) ∧
      ∀ vpn, (pt.entry vpn).v = true → pt'.entry vpn = pt.entry vpn := by
  obtain ⟨hmod, hdiv, -⟩ := pages_of_va va
  obtain ⟨-, hmax, k, -, hr, hent⟩ := mapPagesFrom_entry _ _ _ _ _ hmod (userVmMap_inv h)
  obtain rfl := hr.mp rfl
  have hpages : 1 ≤ (va + PGSIZE - 1) / PGSIZE + 1 - va / PGSIZE := by
    unfold PGSIZE
    omega
  rw [hdiv] at hent
  have htables := mapPagesFrom_tables _ _ _ _ _ (.refl s) (userVmMap_inv h)
  refine ⟨htables.sameRange, ?_, ?_, ?_, ?_⟩
  · unfold MAXVA ROUNDDOWN PGSIZE at *
    omega
  · rw [(hent _).2, if_pos ⟨le_rfl, by omega⟩]
    simp
  · rintro v ⟨hlo, hhi⟩
    rw [(hent v).2, if_pos ⟨hlo, by omega⟩]
    rfl
  · intro vpn hvalid
    rw [(hent vpn).2, if_neg]
    intro hin
    simp [(hent vpn).1 hin] at hvalid

end

/-! ## The other regions -/

def Space.Besides (c : Space) (v : Nat) : Prop :=
  (c.pagetable.entry v).v = true ∧ ∀ va, c.HeapPage va → va / PGSIZE ≠ v

/-- A region other than the heap: empty, or `PGSIZE` bytes on mapped pages
outside the heap, the first one a managed frame if it is writable. -/
def Space.RegionOwned (c : Space) (lo hi : Nat) (r : MappedRegion) : Prop :=
  r.segType ≠ .heap ∧
    (r.npages = 0 ∧ r.segType = .stack ∨
      r.npages = 1 ∧ r.va < MAXVA ∧ (∀ v, Touched r.va v → c.Besides v) ∧
        ((c.pagetable.entry (r.va / PGSIZE)).perm.w = true →
          Frame lo hi (c.pagetable.entry (r.va / PGSIZE)).pa))

structure Space.RegionsOwned (c : Space) (lo hi : Nat) : Prop where
  four_le : 4 ≤ c.totalMappedRegion
  named : (c.mappedInfo 3).va ≠ 0
  owned : ∀ i, i ≠ 3 → c.RegionOwned lo hi (c.mappedInfo i)

section

variable {s s' : Pmm T} {c c' : Space} {pt : PageTable} {lo hi va pa : Nat}
  {r : MappedRegion} {trapSec : Nat}

omit [RefTable T] in
theorem touched_first (va : Nat) : Touched va (va / PGSIZE) := by
  unfold Touched PGSIZE
  omega

omit [RefTable T] in
theorem Space.RegionOwned.kept (h : c.RegionOwned lo hi r)
    (hent : ∀ v, c.Besides v →
      c'.pagetable.entry v = c.pagetable.entry v ∧ ∀ va, c'.HeapPage va → va / PGSIZE ≠ v) :
    c'.RegionOwned lo hi r := by
  obtain ⟨hseg, h0 | ⟨h1, hlt, hbesides, hframe⟩⟩ := h
  · exact ⟨hseg, .inl h0⟩
  · refine ⟨hseg, .inr ⟨h1, hlt, ?_, ?_⟩⟩
    · intro v hv
      obtain ⟨hsame, hheap⟩ := hent v (hbesides v hv)
      refine ⟨?_, hheap⟩
      rw [hsame]
      exact (hbesides v hv).1
    · rwa [(hent _ (hbesides _ (touched_first r.va))).1]

/-! ### A new process -/

omit [RefTable T] in
theorem Space.HeapEmpty.not_heapPage (h : c.HeapEmpty) : ¬ c.HeapPage va := by
  rintro ⟨hlo, hhi, -⟩
  rw [h.bottom] at hlo
  rw [h.top] at hhi
  omega

omit [RefTable T] in
theorem Frame.leaf {perm : Perm} (h : Frame lo hi pa) : Frame lo hi (Pte.leaf pa perm).pa := by
  rwa [leaf_pa_of_aligned perm h.1]

theorem initSpace_owned {trapframe userStack : Nat} (htf : Frame lo hi trapframe)
    (hstk : Frame lo hi userStack)
    (h : initSpace s trapSec pt trapframe userStack = .ok (s', c)) :
    c.RegionsOwned lo hi ∧ SameRange s s' := by
  have hempty := initSpace_heapEmpty h
  obtain ⟨s1, pt1, s2, pt2, pt3, h1, h2, h3, rfl⟩ := initSpace_inv h
  obtain ⟨hr1, hlt1, he1, hv1, -⟩ := userVmMap_kept h1
  obtain ⟨hr2, hlt2, he2, hv2, hk2⟩ := userVmMap_kept h2
  obtain ⟨hr3, hlt3, he3, hv3, hk3⟩ := userVmMap_kept h3
  -- valid entries stay as they are
  have hkept : ∀ v, (pt1.entry v).v = true → pt3.entry v = pt1.entry v := by
    intro v hv
    have h2' := hk2 v hv
    rw [hk3 v (by rw [h2']; exact hv), h2']
  have hstack : pt3.entry ((USER_STACK_TOP - PGSIZE) / PGSIZE)
      = Pte.leaf userStack (protToType true true false true) := by
    rw [hkept _ (by rw [he1]; rfl), he1]
  have hcontext : pt3.entry (trapframe / PGSIZE)
      = Pte.leaf trapframe (protToType true true false false) := by
    rw [hk3 _ (by rw [he2]; rfl), he2]
  have hnamed : (initialRegions trapframe trapSec 3).va ≠ 0 := by
    show USER_FREE_ADDRESS_START ≠ 0
    decide
  refine ⟨⟨Nat.le_refl 4, hnamed, ?_⟩, (hr1.trans hr2).trans hr3⟩
  intro i hne
  match i, hne with
  | 0, _ =>
    refine ⟨SegType.noConfusion, .inr ⟨rfl, hlt1, fun v hv => ⟨?_, fun va hva _ =>
      hempty.not_heapPage hva⟩, fun _ => ?_⟩⟩
    · rw [hkept v (hv1 v hv)]
      exact hv1 v hv
    · show Frame lo hi (pt3.entry ((USER_STACK_TOP - PGSIZE) / PGSIZE)).pa
      rw [hstack]
      exact hstk.leaf
  | 1, _ =>
    refine ⟨SegType.noConfusion, .inr ⟨rfl, hlt2, fun v hv => ⟨?_, fun va hva _ =>
      hempty.not_heapPage hva⟩, fun _ => ?_⟩⟩
    · rw [hk3 v (hv2 v hv)]
      exact hv2 v hv
    · show Frame lo hi (pt3.entry (trapframe / PGSIZE)).pa
      rw [hcontext]
      exact htf.leaf
  | 2, _ =>
    refine ⟨SegType.noConfusion, .inr ⟨rfl, hlt3, fun v hv => ⟨hv3 v hv, fun va hva _ =>
      hempty.not_heapPage hva⟩, fun hw => ?_⟩⟩
    have hw' : (pt3.entry (trapSec / PGSIZE)).perm.w = true := hw
    rw [he3] at hw'
    cases hw'
  | i + 4, _ => exact ⟨SegType.noConfusion, .inl ⟨rfl, rfl⟩⟩

theorem allocProcessSpace_owned {free : List Nat} (hl : s.Listed free)
    (h : allocProcessSpace s trapSec = .ok (s', c)) :
    c.RegionsOwned s.freeMemStartAddr s.freeMemEndAddr ∧ c.HeapEmpty ∧
      ∃ free', Took s s' free free' := by
  obtain ⟨tf, stk, dir, s1, free1, s2, pf, ht1, -, ⟨htf, -⟩, ⟨hstk, -⟩, hinit, hpf⟩ :=
    allocProcessSpace_pages hl h
  obtain ⟨howned, -⟩ := initSpace_owned (hl.managed tf htf) (hl.managed stk hstk) hinit
  refine ⟨howned, initSpace_heapEmpty hinit, ?_⟩
  obtain ⟨s3, pt3, s4, pt4, pt5, h3, h4, h5, -⟩ := initSpace_inv hinit
  obtain ⟨free3, ht3⟩ := userVmMap_took ht1.listed h3
  obtain ⟨free4, ht4⟩ := userVmMap_took ht3.listed h4
  obtain ⟨free5, ht5⟩ := userVmMap_took ht4.listed h5
  obtain ⟨-, -, -, free6, -, ht6⟩ := allocPage_fresh ht5.listed hpf
  exact ⟨free6, (((ht1.trans ht3).trans ht4).trans ht5).trans ht6⟩

omit [RefTable T] in
theorem recordRegion_owned {segType : SegType} (hc : c.RegionsOwned lo hi)
    (hr : c.RegionOwned lo hi ⟨va, 1, segType⟩) (h : recordRegion c va segType = .ok c') :
    c'.RegionsOwned lo hi := by
  unfold recordRegion at h
  split at h
  · cases h
  rename_i j hj
  cases h
  have hzero : (c.mappedInfo j).va = 0 := by simpa using find?_some hj
  have hne : (3 : Nat) ≠ j := by
    rintro rfl
    exact hc.named hzero
  have hthree : update c.mappedInfo j ⟨va, 1, segType⟩ 3 = c.mappedInfo 3 := update_of_ne hne _ _
  refine ⟨Nat.le_succ_of_le hc.four_le, ?_, ?_⟩
  · dsimp only
    rw [hthree]
    exact hc.named
  · intro i hi3
    dsimp only
    by_cases hij : i = j
    · rwa [hij, update_self]
    · rw [update_of_ne hij]
      exact hc.owned i hi3

theorem loadSegment_owned {ph : ElfProgHeader} {free : List Nat} (hl : s.Listed free)
    (hrange : s.freeMemStartAddr = lo ∧ s.freeMemEndAddr = hi) (hc : c.RegionsOwned lo hi)
    (hempty : c.HeapEmpty) (h : loadSegment s c ph = .ok (s', c')) :
    c'.RegionsOwned lo hi ∧ ∃ free', Took s s' free free' := by
  rcases loadSegment_inv h with ⟨-, rfl, rfl⟩ | ⟨-, dest, s1, pt1, segType, hal, rfl, hseg, hrec⟩
  · exact ⟨hc, free, .refl hl⟩
  obtain ⟨hsize, -, s2, -, hmap⟩ := elfAllocMb_inv hal
  obtain ⟨hdf, free1, -, ht⟩ := elfAllocMb_took hl hal
    (m := copyBytes s1.mem dest ph.content 0 ph.memsz)
    (fun x hx => copyBytes_outside (by omega))
  have hdest : Frame lo hi dest := by
    obtain ⟨ha, hlo, hhi⟩ := hl.managed dest hdf
    exact ⟨ha, hrange.1 ▸ hlo, hrange.2 ▸ hhi⟩
  obtain ⟨-, hlt, hent, hvalid, hkept⟩ := userVmMap_kept hmap
  have hheap : ∀ va, ¬ ({ c with pagetable := pt1 } : Space).HeapPage va :=
    fun va hva => hempty.not_heapPage (c := c) hva
  have hc1 : ({ c with pagetable := pt1 } : Space).RegionsOwned lo hi := by
    refine ⟨hc.four_le, hc.named, fun i hi3 => (hc.owned i hi3).kept ?_⟩
    intro v hv
    exact ⟨hkept v hv.1, fun va hva => absurd hva (hheap va)⟩
  refine ⟨recordRegion_owned hc1 ?_ hrec, free1, ht⟩
  refine ⟨?_, .inr ⟨rfl, hlt, fun v hv => ⟨hvalid v hv, fun va hva =>
    absurd hva (hheap va)⟩, ?_⟩⟩
  · rcases segTypeOf_kind hseg with rfl | rfl
    · exact SegType.noConfusion
    · exact SegType.noConfusion
  · intro _
    rw [hent]
    exact hdest.leaf

theorem elfLoad_owned : ∀ (phs : List ElfProgHeader) (s : Pmm T) (c : Space) (free : List Nat),
    s.Listed free → s.freeMemStartAddr = lo ∧ s.freeMemEndAddr = hi → c.RegionsOwned lo hi →
    c.HeapEmpty → elfLoad s c phs = .ok (s', c') →
    c'.RegionsOwned lo hi ∧ ∃ free', Took s s' free free' := by
  intro phs
  induction phs with
  | nil =>
    intro s c free hl _ hc _ h
    cases h
    exact ⟨hc, free, .refl hl⟩
  | cons ph phs ih =>
    intro s c free hl hrange hc hempty h
    simp only [elfLoad, bind_eq_ok] at h
    obtain ⟨⟨s1, c1⟩, h1, h⟩ := h
    obtain ⟨hc1, free1, ht1⟩ := loadSegment_owned hl hrange hc hempty h1
    obtain ⟨hc2, free2, ht2⟩ := ih s1 c1 free1 ht1.listed
      ⟨ht1.start_eq.trans hrange.1, ht1.end_eq.trans hrange.2⟩ hc1
      (loadSegment_heapEmpty hempty h1) h
    exact ⟨hc2, free2, ht1.trans ht2⟩

/-! ### The calls that use the heap -/

omit [RefTable T] in
theorem Space.RegionsOwned.grow (h : c.RegionsOwned lo hi) {n : Nat}
    (hun : (c.pagetable.entry (c.heapTop / PGSIZE)).v = false) (htop : c.heapTop % PGSIZE = 0)
    (hkept : ∀ vpn, (c.pagetable.entry vpn).v = true → pt.entry vpn = c.pagetable.entry vpn) :
    ({ c with
      pagetable := pt
      heapTop := c.heapTop + PGSIZE
      mappedInfo := update c.mappedInfo 3 { c.mappedInfo 3 with npages := n } } :
        Space).RegionsOwned lo hi := by
  refine ⟨h.four_le, ?_, ?_⟩
  · simp only [update_self]
    exact h.named
  · intro i hi3
    simp only [update_of_ne hi3]
    refine (h.owned i hi3).kept ?_
    rintro v ⟨hv, hheap⟩
    refine ⟨hkept v hv, ?_⟩
    rintro va ⟨hlo, hhi, hmod⟩ heq
    have hhi' : va < c.heapTop + PGSIZE := hhi
    by_cases hold : va < c.heapTop
    · exact hheap va ⟨hlo, hold, hmod⟩ heq
    · have hva : va = c.heapTop := by
        unfold PGSIZE at *
        omega
      rw [← heq, hva, hun] at hv
      cases hv

omit [RefTable T] in
theorem Space.RegionsOwned.retable (h : c.RegionsOwned lo hi) {fp : List Nat}
    (hkept : ∀ v, c.Besides v → pt.entry v = c.pagetable.entry v) :
    ({ c with pagetable := pt, freePages := fp } : Space).RegionsOwned lo hi := by
  refine ⟨h.four_le, h.named, fun i hi3 => (h.owned i hi3).kept ?_⟩
  intro v hv
  exact ⟨hkept v hv, hv.2⟩

theorem sysUserAllocatePage_owned (hp : c.PageHeap) (h : c.RegionsOwned lo hi)
    (hs : sysUserAllocatePage s c = .ok (s', c')) : c'.RegionsOwned lo hi ∧ SameRange s s' := by
  obtain ⟨pa, s1, ha, ⟨va, rest, pt, hfree, -, hmap, rfl⟩ | ⟨-, pt, hmap, rfl⟩⟩ :=
    sysUserAllocatePage_inv hs
  · obtain ⟨hr, -, -, -, hkept⟩ := userVmMap_kept hmap
    exact ⟨h.retable (fun v hv => hkept v hv.1), (allocPage_sameRange ha).trans hr⟩
  · obtain ⟨hr, hlt, -, -, hkept⟩ := userVmMap_kept hmap
    have htop : u64 (c.heapTop + PGSIZE) = c.heapTop + PGSIZE := by
      apply u64_of_lt
      unfold MAXVA PGSIZE at *
      omega
    rw [htop]
    exact ⟨h.grow (userVmMap_unmapped hp.top_mod hmap) hp.top_mod hkept,
      (allocPage_sameRange ha).trans hr⟩

theorem sysUserFreePage_owned (hp : c.PageHeap) (h : c.RegionsOwned lo hi)
    (hva : c.HeapPage va) (hnot : va ∉ c.freePages)
    (hs : sysUserFreePage s c va = .ok (s', c')) : c'.RegionsOwned lo hi ∧ SameRange s s' := by
  obtain ⟨-, hwalks, hfree, rfl⟩ := sysUserFreePage_pages hp hva hnot hs
  refine ⟨h.retable ?_, freePage_range hfree⟩
  intro v hv
  rw [PageTable.invalidate, entry_set _ hwalks, if_neg (fun heq => hv.2 va hva heq.symm)]

theorem owned_kept (u : HeapUser T) (lo hi : Nat) :
    KeptByMalloc (fun t => (u.withProc t).space.PageHeap ∧ (u.withProc t).space.RegionsOwned lo hi ∧
      t.pmm.freeMemStartAddr = lo ∧ t.pmm.freeMemEndAddr = hi) := by
  constructor
  · intro t m h
    exact h
  · intro t b h
    exact h
  · rintro t t' va ⟨hp, ho, hlo, hhi⟩ ha
    refine ⟨(pageHeap_kept u).page t t' va hp ha, ?_⟩
    simp only [addHeapPage, bind_eq_ok] at ha
    obtain ⟨⟨page, pmm1⟩, halloc, ha⟩ := ha
    split at ha
    · cases ha
    simp only [bind_eq_ok] at ha
    obtain ⟨⟨pmm2, pt⟩, hmap, -, ⟨⟩⟩ := ha
    obtain ⟨hr, hlt, -, -, hkept⟩ := userVmMap_kept hmap
    have hr1 := allocPage_sameRange halloc
    have htop : u64 (t.heapTop + PGSIZE) = t.heapTop + PGSIZE := by
      apply u64_of_lt
      unfold MAXVA PGSIZE at *
      omega
    have hgrow := ho.grow (n := (t.npages + 1) % 2 ^ 32) (userVmMap_unmapped hp.top_mod hmap)
      hp.top_mod hkept
    refine ⟨?_, (hr.1.trans hr1.1).trans hlo, (hr.2.trans hr1.2).trans hhi⟩
    simp only [HeapUser.withProc, htop]
    simpa [HeapUser.withProc] using hgrow

end

structure HeapUser.Sound (u : HeapUser T) : Prop where
  pages : u.space.PageHeap
  regions : u.space.RegionsOwned u.pmm.freeMemStartAddr u.pmm.freeMemEndAddr

theorem HeapUser.boot_sound {pmm : Pmm T} {trapSec : Nat} {phs : List ElfProgHeader}
    {u : HeapUser T} {free : List Nat} (hl : pmm.Listed free)
    (h : HeapUser.boot pmm trapSec phs = .ok u) : u.Sound := by
  refine ⟨(HeapUser.boot_fresh h).empty.pageHeap, ?_⟩
  simp only [HeapUser.boot, bind_eq_ok] at h
  obtain ⟨⟨s1, c1⟩, h1, ⟨s2, c2⟩, h2, h⟩ := h
  cases h
  obtain ⟨hc1, hempty, free1, ht1⟩ := allocProcessSpace_owned hl h1
  obtain ⟨hc2, free2, ht2⟩ :=
    elfLoad_owned phs s1 c1 free1 ht1.listed ⟨ht1.start_eq, ht1.end_eq⟩ hc1 hempty h2
  rwa [ht2.start_eq, ht2.end_eq, ht1.start_eq, ht1.end_eq]

theorem HeapUser.Sound.step {u u' : HeapUser T} {call : HeapCall} (h : u.Sound)
    (hok : u.Allowed call) (hs : u.step call = .ok u') : u'.Sound := by
  have hpages := HeapUser.step_pageHeap h.pages hok hs
  have hself : (u.withProc u.proc).space = u.space := by simp [HeapUser.withProc, HeapUser.proc]
  have hkept := owned_kept u u.pmm.freeMemStartAddr u.pmm.freeMemEndAddr
  have hstart : (u.withProc u.proc).space.PageHeap ∧
      (u.withProc u.proc).space.RegionsOwned u.pmm.freeMemStartAddr u.pmm.freeMemEndAddr ∧
      u.proc.pmm.freeMemStartAddr = u.pmm.freeMemStartAddr ∧
      u.proc.pmm.freeMemEndAddr = u.pmm.freeMemEndAddr := by
    rw [hself]
    exact ⟨h.pages, h.regions, rfl, rfl⟩
  refine ⟨hpages, ?_⟩
  cases call with
  | malloc n =>
    simp only [HeapUser.step, bind_eq_ok] at hs
    obtain ⟨⟨p, t⟩, hm, ⟨⟩⟩ := hs
    obtain ⟨-, ho, hlo, hhi⟩ := hkept.vmMalloc hstart hm
    show (u.withProc t).space.RegionsOwned t.pmm.freeMemStartAddr t.pmm.freeMemEndAddr
    rwa [hlo, hhi]
  | free va =>
    simp only [HeapUser.step, bind_eq_ok] at hs
    obtain ⟨t, hf, hs⟩ := hs
    cases hs
    obtain ⟨-, ho, hlo, hhi⟩ := hkept.vmFree hstart hf
    show (u.withProc t).space.RegionsOwned t.pmm.freeMemStartAddr t.pmm.freeMemEndAddr
    rwa [hlo, hhi]
  | allocatePage =>
    simp only [HeapUser.step, bind_eq_ok] at hs
    obtain ⟨⟨pmm, c⟩, ha, ⟨⟩⟩ := hs
    obtain ⟨ho, hr⟩ := sysUserAllocatePage_owned h.pages h.regions ha
    rwa [hr.1, hr.2]
  | freePage va =>
    simp only [HeapUser.step, bind_eq_ok] at hs
    obtain ⟨⟨pmm, c⟩, hf, ⟨⟩⟩ := hs
    obtain ⟨ho, hr⟩ := sysUserFreePage_owned h.pages h.regions hok.1 hok.2 hf
    rwa [hr.1, hr.2]

/-! ## `proc_clean_pagetable` -/

/-- The frames that the `HEAP_SEGMENT` loop of `proc_clean_pagetable` passes to
`free_page`, in this order. -/
def Space.heapReleases (c : Space) : List Nat :=
  cleanedHeap c.pagetable (c.mappedInfo 3).npages (u64 (c.heapTop + (2 ^ 64 - PGSIZE)))

def Space.heapFrames (c : Space) : List Nat :=
  (c.heapPages.filter (fun va => (c.pagetable.entry (va / PGSIZE)).v)).map
    (fun va => (c.pagetable.entry (va / PGSIZE)).pa)

/-- `exec` releases the heap: `free_page` is called once for each heap page that
is mapped and for nothing else, and does not panic. -/
def HeapUser.HeapReleased (u : HeapUser T) : Prop :=
  u.space.heapReleases.Perm u.space.heapFrames ∧
    ∀ pa, procCleanPagetable u.pmm u.space ≠ .error (.panic "free_page 0x%lx \n" [pa])

section

variable {s s' : Pmm T} {c : Space} {pt : PageTable} {lo hi va : Nat} {ps : List Nat}
  {r : MappedRegion}

theorem freePages_outcome : ∀ (ps : List Nat) (s : Pmm T),
    ((∀ p ∈ ps, s.Managed p) → ∃ s', freePages ps s = .ok s') ∧
      ((∃ p ∈ ps, ¬ s.Managed p) →
        ∃ pa, freePages ps s = .error (.panic "free_page 0x%lx \n" [pa])) := by
  intro ps
  induction ps with
  | nil =>
    intro s
    exact ⟨fun _ => ⟨s, rfl⟩, by simp⟩
  | cons p ps ih =>
    intro s
    rw [freePages]
    cases hf : freePage s p with
    | error e =>
      have hnot : ¬ s.Managed p ∧ e = .panic "free_page 0x%lx \n" [p] := by
        unfold freePage at hf
        split at hf
        · rename_i hbad
          cases hf
          exact ⟨fun hm => by unfold Pmm.Managed at hm; omega, rfl⟩
        · split at hf
          · cases hf
          · cases hf
      obtain ⟨hnot, rfl⟩ := hnot
      exact ⟨fun hall => absurd (hall p (by simp)) hnot, fun _ => ⟨p, rfl⟩⟩
    | ok s1 =>
      have hp := freePage_managed hf
      have hr := freePage_range hf
      have hsame : ∀ q, s1.Managed q ↔ s.Managed q := by
        intro q
        unfold Pmm.Managed
        rw [hr.1, hr.2]
      obtain ⟨hgood, hbad⟩ := ih s1
      rw [ok_bind]
      constructor
      · intro hall
        exact hgood fun q hq => (hsame q).mpr (hall q (by simp [hq]))
      · rintro ⟨q, hq, hnot⟩
        rcases mem_cons.mp hq with rfl | hq
        · exact absurd hp hnot
        · exact hbad ⟨q, hq, fun hm => hnot ((hsame q).mp hm)⟩

section

omit [RefTable T]

theorem cleanedHeap_eq {b : Nat} (hb : PGSIZE ≤ b) : ∀ n, b + n * PGSIZE ≤ MAXVA →
    cleanedHeap pt n (b + n * PGSIZE - PGSIZE)
      = ((List.range n).map (fun i => lookupPa pt (b + i * PGSIZE))).reverse := by
  intro n
  induction n with
  | zero =>
    intro _
    rfl
  | succ n ih =>
    intro hmax
    have htop : b + (n + 1) * PGSIZE - PGSIZE = b + n * PGSIZE := by
      unfold PGSIZE
      omega
    have hle : b + n * PGSIZE ≤ MAXVA := by
      omega
    have hnext : u64 (b + n * PGSIZE + (2 ^ 64 - PGSIZE)) = b + n * PGSIZE - PGSIZE := by
      clear ih htop hmax
      unfold u64 MAXVA PGSIZE at *
      omega
    have hstep : cleanedHeap pt (n + 1) (b + n * PGSIZE) = lookupPa pt (b + n * PGSIZE) ::
        cleanedHeap pt n (u64 (b + n * PGSIZE + (2 ^ 64 - PGSIZE))) := rfl
    rw [htop, hstep, hnext, ih hle, range_succ, map_append, reverse_append]
    rfl

theorem Space.PageHeap.cleanedHeap_eq (h : c.PageHeap) (pt : PageTable) :
    cleanedHeap pt (c.mappedInfo 3).npages (u64 (c.heapTop + (2 ^ 64 - PGSIZE)))
      = (c.heapPages.map (lookupPa pt)).reverse := by
  have htop := h.top
  have hle := h.top_le
  have hb : PGSIZE ≤ c.heapBottom := by
    rw [h.bottom]
    decide
  have hsub : u64 (c.heapTop + (2 ^ 64 - PGSIZE))
      = c.heapBottom + (c.mappedInfo 3).npages * PGSIZE - PGSIZE := by
    unfold u64 MAXVA PGSIZE at *
    omega
  rw [hsub, CabbagePKE.cleanedHeap_eq hb _ (by omega), Space.heapPages, map_map]
  rfl

theorem lookupPa_of_pageMapped (h : PageMapped pt va) :
    lookupPa pt va = (pt.entry (va / PGSIZE)).pa := by
  have hlt : ¬ MAXVA ≤ va := not_le.mpr h.1
  rw [lookupPa, if_neg hlt]
  exact if_pos h.2

theorem Space.PageHeap.releases_perm_iff (h : c.PageHeap) :
    c.heapReleases.Perm c.heapFrames ↔ c.freePages = [] := by
  rw [Space.heapReleases, h.cleanedHeap_eq]
  constructor
  · intro hperm
    have hlen := hperm.length_eq
    rw [length_reverse, length_map, Space.heapFrames, length_map] at hlen
    have hall := length_filter_eq_length_iff.mp hlen.symm
    rw [eq_nil_iff_forall_not_mem]
    intro va hva
    obtain ⟨hpage, hv⟩ := h.reclaimed va hva
    have hmapped := hall va (h.mem_heapPages.mpr hpage)
    simp [hv] at hmapped
  · intro hnil
    have hmapped : ∀ va ∈ c.heapPages, PageMapped c.pagetable va := by
      intro va hva
      exact h.live va (h.mem_heapPages.mp hva) (by rw [hnil]; simp)
    have hfilter : c.heapPages.filter (fun va => (c.pagetable.entry (va / PGSIZE)).v)
        = c.heapPages :=
      filter_eq_self.mpr (fun va hva => (hmapped va hva).2.1)
    have hmap : c.heapPages.map (lookupPa c.pagetable)
        = c.heapPages.map (fun va => (c.pagetable.entry (va / PGSIZE)).pa) :=
      map_congr_left (fun va hva => lookupPa_of_pageMapped (hmapped va hva))
    rw [Space.heapFrames, hfilter, hmap]
    exact reverse_perm _

end

/-- The page table while the regions of `c` are cleaned: pages of the heap are
as they were, and the tables are still there. -/
structure CleaningPages (c : Space) (pt : PageTable) : Prop where
  heap : ∀ va, c.HeapPage va → lookupPa pt va = lookupPa c.pagetable va
  walks : ∀ v, c.pagetable.walks v = true → pt.walks v = true
  owned : ∀ v, c.pagetable.walks v = true →
    pt.pte v = c.pagetable.pte v ∨ (pt.pte v).v = false

omit [RefTable T] in
theorem CleaningPages.refl (c : Space) : CleaningPages c c.pagetable :=
  ⟨fun _ _ => rfl, fun _ h => h, fun _ _ => .inl rfl⟩

omit [RefTable T] in
theorem CleaningPages.invalidate {v : Nat} (h : CleaningPages c pt)
    (hheap : ∀ va, c.HeapPage va → va / PGSIZE ≠ v) : CleaningPages c (pt.invalidate v) := by
  refine ⟨?_, h.walks, ?_⟩
  · intro va hva
    rw [← h.heap va hva]
    have hent : (pt.invalidate v).entry (va / PGSIZE) = pt.entry (va / PGSIZE) := by
      simp only [PageTable.entry, PageTable.invalidate, PageTable.set, if_neg (hheap va hva)]
    unfold lookupPa
    rw [hent]
  · intro w hw
    by_cases hwv : w = v
    · refine .inr ?_
      simp [PageTable.invalidate, PageTable.set, hwv]
    · have hsame : (pt.invalidate v).pte w = pt.pte w := by
        simp [PageTable.invalidate, PageTable.set, hwv]
      rw [hsame]
      exact h.owned w hw

theorem CleaningPages.region (h : CleaningPages c pt) (hr : c.RegionOwned lo hi r) :
    (∀ p ∈ (cleanedRegion r.npages r.va pt).1, Frame lo hi p) ∧
      CleaningPages c (cleanedRegion r.npages r.va pt).2 ∧
      ∀ s : Pmm T, cleanRegion r.npages r.va s pt
        = (freePages (cleanedRegion r.npages r.va pt).1 s >>=
          fun s' => .ok (s', (cleanedRegion r.npages r.va pt).2)) := by
  obtain ⟨-, h0 | ⟨h1, hlt, hbesides, hframe⟩⟩ := hr
  · rw [h0.1]
    exact ⟨by simp [cleanedRegion], h, fun s => rfl⟩
  obtain ⟨hv, hheap⟩ := hbesides _ (touched_first r.va)
  have hwalks := walks_of_valid hv
  rw [entry_of_walks hwalks] at hframe
  have hpt : pt.walks (r.va / PGSIZE) = true := h.walks _ hwalks
  have hmax : ¬ MAXVA ≤ r.va := not_le.mpr hlt
  rw [h1]
  by_cases hw : (pt.pte (r.va / PGSIZE)).perm.w = true ∧ (pt.pte (r.va / PGSIZE)).v = true
  · have hcleaned : cleanedRegion 1 r.va pt
        = ([(pt.pte (r.va / PGSIZE)).pa], pt.invalidate (r.va / PGSIZE)) := by
      simp [cleanedRegion, hw]
    rw [hcleaned]
    refine ⟨?_, h.invalidate hheap, ?_⟩
    · intro p hp
      rw [mem_singleton.mp hp]
      rcases h.owned _ hwalks with hsame | hinv
      · rw [hsame] at hw ⊢
        exact hframe hw.1
      · rw [hinv] at hw
        cases hw.2
    · intro s
      simp only [cleanRegion, freePages, if_neg hmax, hpt, Bool.not_true, Bool.false_eq_true,
        if_false, if_pos hw]
      cases freePage s (pt.pte (r.va / PGSIZE)).pa with
      | error e => rfl
      | ok s1 => rfl
  · have hcleaned : cleanedRegion 1 r.va pt = ([], pt) := by simp only [cleanedRegion, if_neg hw]
    rw [hcleaned]
    refine ⟨by simp, h, fun s => ?_⟩
    simp only [cleanRegion, freePages, if_neg hmax, hpt, Bool.not_true, Bool.false_eq_true,
      if_false, if_neg hw]
    rfl

omit [RefTable T] in
theorem CleaningPages.heapReleases_eq (h : CleaningPages c pt) (hp : c.PageHeap) :
    cleanedHeap pt (c.mappedInfo 3).npages (u64 (c.heapTop + (2 ^ 64 - PGSIZE)))
      = c.heapReleases := by
  rw [Space.heapReleases, hp.cleanedHeap_eq, hp.cleanedHeap_eq]
  congr 1
  exact map_congr_left (fun va hva => h.heap va (hp.mem_heapPages.mp hva))

theorem CleaningPages.regions (hp : c.PageHeap) : ∀ (rs : List MappedRegion) (pt : PageTable),
    CleaningPages c pt → (∀ r ∈ rs, r = c.mappedInfo 3 ∨ c.RegionOwned lo hi r) →
    (∃ pt', ∀ s : Pmm T, cleanRegions c.heapTop rs s pt
        = (freePages (cleanedRegions c.heapTop rs pt) s >>= fun s' => .ok (s', pt'))) ∧
      ((∀ p ∈ cleanedRegions c.heapTop rs pt, Frame lo hi p) ↔
        (c.mappedInfo 3 ∈ rs → ∀ p ∈ c.heapReleases, Frame lo hi p)) := by
  intro rs
  induction rs with
  | nil =>
    intro pt h _
    exact ⟨⟨pt, fun s => rfl⟩, by simp [cleanedRegions]⟩
  | cons r rs ih =>
    intro pt h hrs
    have hrest : ∀ r' ∈ rs, r' = c.mappedInfo 3 ∨ c.RegionOwned lo hi r' :=
      fun r' hr' => hrs r' (by simp [hr'])
    rcases hrs r (by simp) with rfl | hr
    · obtain ⟨⟨pt', hclean⟩, hframes⟩ := ih pt h hrest
      have hlist : cleanedRegions c.heapTop (c.mappedInfo 3 :: rs) pt
          = c.heapReleases ++ cleanedRegions c.heapTop rs pt := by
        rw [cleanedRegions, if_pos hp.kind, h.heapReleases_eq hp]
      rw [hlist]
      refine ⟨⟨pt', fun s => ?_⟩, ?_⟩
      · rw [cleanRegions, if_pos hp.kind, cleanHeap_eq_freePages, h.heapReleases_eq hp,
          freePages_append, bind_assoc]
        congr 1
        funext s1
        exact hclean s1
      · simp only [mem_append, mem_cons, true_or, forall_const]
        constructor
        · intro hall p hp'
          exact hall p (.inl hp')
        · rintro hall p (hp' | hp')
          · exact hall p hp'
          · exact hframes.mpr (fun _ => hall) p hp'
    · obtain ⟨hregion, hnext, hone⟩ := h.region (T := T) hr
      obtain ⟨⟨pt', hclean⟩, hframes⟩ := ih _ hnext hrest
      have hne : c.mappedInfo 3 ≠ r := by
        rintro rfl
        exact hr.1 hp.kind
      have hlist : cleanedRegions c.heapTop (r :: rs) pt = (cleanedRegion r.npages r.va pt).1 ++
          cleanedRegions c.heapTop rs (cleanedRegion r.npages r.va pt).2 := by
        rw [cleanedRegions, if_neg hr.1]
      rw [hlist]
      refine ⟨⟨pt', fun s => ?_⟩, ?_⟩
      · rw [cleanRegions, if_neg hr.1, hone, freePages_append, bind_assoc, bind_assoc]
        congr 1
        funext s1
        exact hclean s1
      · simp only [mem_append, mem_cons, hne, false_or]
        rw [← hframes]
        constructor
        · intro hall p hp'
          exact hall p (.inr hp')
        · rintro hall p (hp' | hp')
          · exact hregion p hp'
          · exact hall p hp'

theorem procClean_panics_iff (hp : c.PageHeap)
    (ho : c.RegionsOwned s.freeMemStartAddr s.freeMemEndAddr) :
    (∃ pa, procCleanPagetable s c = .error (.panic "free_page 0x%lx \n" [pa])) ↔
      ∃ p ∈ c.heapReleases, ¬ s.Managed p := by
  have hregions : ∀ r ∈ c.regions, r = c.mappedInfo 3 ∨
      c.RegionOwned s.freeMemStartAddr s.freeMemEndAddr r := by
    intro r hr
    obtain ⟨i, -, rfl⟩ := mem_map.mp hr
    by_cases hi3 : i = 3
    · exact .inl (by rw [hi3])
    · exact .inr (ho.owned i hi3)
  have hheap : c.mappedInfo 3 ∈ c.regions := mem_map.mpr ⟨3, mem_range.mpr ho.four_le, rfl⟩
  obtain ⟨⟨pt', hclean⟩, hframes⟩ :=
    CleaningPages.regions (T := T) hp c.regions c.pagetable (CleaningPages.refl c) hregions
  obtain ⟨hgood, hbad⟩ := freePages_outcome (cleanedRegions c.heapTop c.regions c.pagetable) s
  rw [procCleanPagetable, hclean]
  constructor
  · rintro ⟨pa, hpanic⟩
    by_contra hnone
    push Not at hnone
    obtain ⟨s', hok⟩ := hgood (hframes.mpr (fun _ => hnone))
    simp [hok] at hpanic
  · rintro ⟨p, hmem, hnot⟩
    have hsome : ∃ p ∈ cleanedRegions c.heapTop c.regions c.pagetable, ¬ s.Managed p := by
      by_contra hnone
      push Not at hnone
      exact hnot (hframes.mp hnone hheap p hmem)
    obtain ⟨pa, hpanic⟩ := hbad hsome
    exact ⟨pa, by rw [hpanic]; rfl⟩

end

theorem HeapUser.Sound.released_iff {u : HeapUser T} (h : u.Sound) :
    u.HeapReleased ↔ u.space.freePages = [] ∧ ∀ va, u.space.HeapPage va →
      u.pmm.Managed (u.space.pagetable.entry (va / PGSIZE)).pa := by
  have hpanic := procClean_panics_iff h.pages h.regions
  rw [HeapUser.HeapReleased, h.pages.releases_perm_iff]
  refine and_congr_right (fun hnil => ?_)
  rw [← not_exists, hpanic]
  push Not
  have hmem : ∀ p, p ∈ u.space.heapReleases ↔
      ∃ va, u.space.HeapPage va ∧ (u.space.pagetable.entry (va / PGSIZE)).pa = p := by
    intro p
    rw [Space.heapReleases, h.pages.cleanedHeap_eq, mem_reverse, mem_map]
    refine exists_congr (fun va => ?_)
    rw [h.pages.mem_heapPages]
    refine and_congr_right (fun hva => ?_)
    have hmapped := h.pages.live va hva (by rw [hnil]; simp)
    rw [lookupPa_of_pageMapped hmapped]
  constructor
  · intro hall va hva
    exact hall _ ((hmem _).mpr ⟨va, hva, rfl⟩)
  · intro hall p hp
    obtain ⟨va, hva, rfl⟩ := (hmem p).mp hp
    exact hall va hva

/-- A process that only used its heap releases it properly at `exec` exactly if
it has no reclaimed page and all its heap pages have frames. -/
theorem heap_released_iff {pmm : Pmm T} {free : List Nat} {trapSec : Nat}
    {phs : List ElfProgHeader} {u₀ u : HeapUser T} (hl : pmm.Listed free)
    (hboot : HeapUser.boot pmm trapSec phs = .ok u₀) (hrun : u₀.Run u) :
    u.HeapReleased ↔ u.space.freePages = [] ∧ ∀ va, u.space.HeapPage va →
      u.pmm.Managed (u.space.pagetable.entry (va / PGSIZE)).pa := by
  have hsound : u.Sound :=
    Reaches.invariant HeapUser.Sound (HeapUser.boot_sound hl hboot)
      (fun _ _ _ hi hok hs => hi.step hok hs) hrun
  exact hsound.released_iff

/-! ## Two runs -/

instance HeapUser.Allowed.decidable (u : HeapUser T) : ∀ call, Decidable (u.Allowed call)
  | .malloc _ => isTrue trivial
  | .free _ => isTrue trivial
  | .allocatePage => isTrue trivial
  | .freePage _ => inferInstanceAs (Decidable ((_ ∧ _ ∧ _) ∧ _))

/-- A process on a small machine makes the calls; `P` holds of the state after. -/
abbrev ReleaseRun (calls : List HeapCall) (P : HeapUser RefList → Prop) : Prop :=
  ∃ pmm, pmmInit 0x80006000 (64 * PGSIZE) (fun _ => 0) ([] : RefList) = .ok pmm ∧
    ∃ u₀, HeapUser.boot pmm 0x80001000 [segmentAt 0x10000 5] = .ok u₀ ∧
    ∃ u, Runs HeapUser.step HeapUser.Allowed u₀ calls u ∧ P u

/-- A process that took two pages and called `vm_malloc` releases all three
pages of its heap. -/
theorem heap_released_iff_unreclaimed : ∃ (pmm : Pmm RefList) (u₀ u : HeapUser RefList),
    HeapUser.boot pmm 0x80001000 [segmentAt 0x10000 5] = .ok u₀ ∧ u₀.Run u ∧
      u.space.heapPages = [0x400000, 0x401000, 0x402000] ∧ u.HeapReleased := by
  obtain ⟨pmm, hpmm, u₀, hboot, u, hruns, hpages, hnil, hmanaged⟩ :
      ReleaseRun [.allocatePage, .allocatePage, .malloc 100] (fun u =>
        u.space.heapPages = [0x400000, 0x401000, 0x402000] ∧ u.space.freePages = [] ∧
        ∀ va ∈ u.space.heapPages,
          u.pmm.Managed (u.space.pagetable.entry (va / PGSIZE)).pa) := by decide +kernel
  obtain ⟨free, hl⟩ := pmmInit_listed hpmm
  have hrun : u₀.Run u := hruns.reaches .start
  have hheap := HeapUser.Run.pageHeap (HeapUser.boot_fresh hboot).empty hrun
  refine ⟨pmm, u₀, u, hboot, hrun, hpages, (heap_released_iff hl hboot hrun).mpr ⟨hnil, ?_⟩⟩
  intro va hva
  exact hmanaged va (hheap.mem_heapPages.mpr hva)

/-- A process that freed one of its two pages runs into the panic. -/
theorem reclaimed_page_panics : ∃ (pmm : Pmm RefList) (free : List Nat)
    (u₀ u : HeapUser RefList), pmm.Listed free ∧
      HeapUser.boot pmm 0x80001000 [segmentAt 0x10000 5] = .ok u₀ ∧ u₀.Run u ∧
      procCleanPagetable u.pmm u.space = .error (.panic "free_page 0x%lx \n" [0]) ∧
      ¬ u.HeapReleased := by
  obtain ⟨pmm, hpmm, u₀, hboot, u, hrun, hclean⟩ :
      ReleaseRun [.allocatePage, .allocatePage, .freePage 0x400000] (fun u =>
        procCleanPagetable u.pmm u.space = .error (.panic "free_page 0x%lx \n" [0])) := by
    decide +kernel
  obtain ⟨free, hl⟩ := pmmInit_listed hpmm
  exact ⟨pmm, free, u₀, u, hl, hboot, hrun.reaches .start, hclean, fun hr => hr.2 0 hclean⟩

end CabbagePKE
