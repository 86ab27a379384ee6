import CabbagePKE.Heap.Release
import CabbagePKE.Lib.Yields
import CabbagePKE.Pmm.Holdings

/-!
# Accounting for the pages of the heap

A process uses its heap by `sys_user_allocate_page` and `sys_user_free_page`
only. The counts agree whatever else is mapped; that a new page is never mapped
already needs the loader to put nothing where the heap grows, and memory to run
out before the heap reaches the stack. It does, because `page_walk` takes a page
for every 512 pages of the heap.
-/

namespace CabbagePKE

open Lib List PageTable

variable {T : Type} [RefTable T]

structure PageUser (T : Type) where
  pmm : Pmm T
  space : Space
  live : List Nat

inductive PageCall
  | allocate
  | free (va : Nat)

/-- One call; a page that is returned is held until it is freed. -/
def PageUser.step (u : PageUser T) : PageCall → Outcome (PageUser T)
  | .allocate => do
      let (pmm, c) ← sysUserAllocatePage u.pmm u.space
      return { pmm := pmm, space := c, live := u.space.nextPage :: u.live }
  | .free va => do
      let (pmm, c) ← sysUserFreePage u.pmm u.space va
      return { pmm := pmm, space := c, live := u.live.erase va }

/-- Only a page that is held is freed, and only while there is room for its
address in `free_pages_address`. -/
def PageUser.Allowed (u : PageUser T) : PageCall → Prop
  | .allocate => True
  | .free va => va ∈ u.live ∧ u.space.freePages.length < MAX_HEAP_PAGES

def PageUser.boot (pmm : Pmm T) (trapSec : Nat) (phs : List ElfProgHeader) :
    Outcome (PageUser T) := do
  let u ← HeapUser.boot pmm trapSec phs
  return { pmm := u.pmm, space := u.space, live := [] }

section

variable {s : Pmm RefList} {c : Space} {pt : PageTable} {va pa : Nat} {perm : Perm}

end

/-! ## Where tables come from -/

section

variable {s s' : Pmm T} {pt pt' : PageTable} {va pa v : Nat} {perm : Perm}

omit [RefTable T] in
theorem walks_of_addMid {i m : Nat} (h : (pt.addMid i m).walks v = true) : pt.walks v = true := by
  by_cases hv : v / 512 / 512 = i
  · by_cases hm : (pt.mid i).isSome
    · simpa [walks, addMid, hv, hm] using h
    · simp [walks, addMid, hv, hm] at h
  · by_cases hm : (pt.mid i).isSome
    · simpa [walks, addMid, hv, hm] using h
    · simpa [walks, addMid, hv, hm] using h

theorem pageWalk_walks {found : Bool} (h : pageWalk s pt va = .ok (found, s', pt'))
    (hv : v / 512 ≠ va / PGSIZE / 512) (hw : pt'.walks v = true) : pt.walks v = true := by
  obtain ⟨-, m, s1, -, ⟨-, -, -, rfl⟩ | ⟨p, l, -, -, ⟨-, -, rfl⟩ | ⟨q, -, -, rfl⟩⟩⟩ :=
    pageWalk_inv h
  · exact hw
  · exact walks_of_addMid hw
  · exact walks_of_addMid (by simpa [walks, addLeaf, hv] using hw)

theorem mapPagesFrom_walks {r : Int} : ∀ (n first pa : Nat) (s : Pmm T) (pt : PageTable),
    mapPagesFrom s pt perm n first pa = .ok (r, s', pt') →
    (∀ w, first / PGSIZE ≤ w → w < first / PGSIZE + n → v / 512 ≠ w / 512) →
    pt'.walks v = true → pt.walks v = true := by
  intro n
  induction n with
  | zero =>
    intro first pa s pt h _ hw
    cases h
    exact hw
  | succ n ih =>
    intro first pa s pt h hv hw
    have hfirst := hv (first / PGSIZE) le_rfl (by omega)
    obtain ⟨found, s1, pt1, hwalk, ⟨-, -, -, rfl⟩ | ⟨-, -, h⟩⟩ := mapPagesFrom_inv h
    · exact pageWalk_walks hwalk hfirst hw
    · have hstep : (first + PGSIZE) / PGSIZE = first / PGSIZE + 1 := by
        unfold PGSIZE
        omega
      have hset := ih _ _ _ _ h (fun w hlo hhi => hv w (by omega) (by omega)) hw
      exact pageWalk_walks hwalk hfirst hset

theorem userVmMap_walks (h : userVmMap s pt va PGSIZE pa perm = .ok (s', pt'))
    (hv : ∀ w, Touched va w → v / 512 ≠ w / 512) (hw : pt'.walks v = true) :
    pt.walks v = true := by
  refine mapPagesFrom_walks _ _ _ _ _ (userVmMap_inv h) ?_ hw
  rw [(pages_of_va va).2.1]
  intro w hlo hhi
  exact hv w ⟨hlo, by omega⟩

theorem touched_of_aligned (hva : va % PGSIZE = 0) (h : Touched va v) : v = va / PGSIZE := by
  unfold Touched PGSIZE at *
  omega

theorem pageWalk_dry (hl : s.Listed []) (h : pageWalk s pt va = .ok (true, s', pt')) :
    pt.walks (va / PGSIZE) = true := by
  obtain ⟨-, m, s1, hm, ⟨-, hfound, -⟩ | ⟨p, l, rfl, hl', ⟨-, hfound, -⟩ | ⟨q, rfl, -, -⟩⟩⟩ :=
    pageWalk_inv h
  · cases hfound
  · cases hfound
  obtain ⟨free1, taken1, ht1, hmid⟩ := walkLevel_takes hl hm
  obtain ⟨htaken1, hfree1⟩ := append_eq_nil_iff.mp ht1.eq.symm
  rw [hfree1] at ht1
  obtain ⟨free2, taken2, ht2, hleaf⟩ := walkLevel_takes ht1.listed hl'
  obtain ⟨htaken2, -⟩ := append_eq_nil_iff.mp ht2.eq.symm
  have hmid' : pt.mid (va / PGSIZE / 512 / 512) = some p := by
    rcases hmid with ⟨hmid, -⟩ | ⟨-, htaken⟩
    · exact hmid
    · simp [htaken1] at htaken
  have hleaf' : pt.leaf (va / PGSIZE / 512) = some q := by
    rcases hleaf with ⟨hleaf, -⟩ | ⟨-, htaken⟩
    · simpa [addMid, hmid'] using hleaf
    · simp [htaken2] at htaken
  simp [walks, hmid', hleaf']

theorem userVmMap_dry (hva : va % PGSIZE = 0) (hl : s.Listed [])
    (h : userVmMap s pt va PGSIZE pa perm = .ok (s', pt')) : pt.walks (va / PGSIZE) = true := by
  have hmap := userVmMap_inv h
  obtain ⟨hround, hn⟩ := (pages_of_va va).2.2 hva
  rw [mapPages, hn, hround] at hmap
  obtain ⟨found, s1, pt1, hw, ⟨-, hr, -⟩ | ⟨rfl, -⟩⟩ := mapPagesFrom_inv hmap
  · cases hr
  · exact pageWalk_dry hl hw

theorem freePage_listed {free : List Nat} (hl : s.Listed free) (hnew : pa ∉ free)
    (h : freePage s pa = .ok s') :
    ∃ free', s'.Listed free' ∧ (free' = free ∨ free' = pa :: free) := by
  have hm := freePage_managed h
  unfold freePage at h
  split at h
  · cases h
  split at h
  · cases h
    exact ⟨free, ⟨hl.start_pos, hl.end_lt, hl.chain, hl.head_lt, hl.managed⟩, .inl rfl⟩
  · cases h
    exact ⟨pa :: free, hl.push hm hnew _, .inr rfl⟩

end

/-! ## The invariant -/

def maxFrames : Nat := PKE_MAX_ALLOWABLE_RAM / PGSIZE

/-- One beyond the pages that a heap of `maxFrames` pages and the third-level
table after it cover. -/
def heapReach : Nat := USER_FREE_ADDRESS_START / PGSIZE + maxFrames + 512

/-- The free list and the frames that the process holds. Each page of the heap
and each reclaimed address costs a frame, until memory runs out. -/
structure PageUser.Budget (u : PageUser T) (free : List Nat) : Prop where
  listed : u.pmm.Listed free
  bound : (u.space.mappedInfo 3).npages + (free.length - u.space.freePages.length) ≤ maxFrames
  apart : ∀ va ∈ u.live, (u.space.pagetable.entry (va / PGSIZE)).pa ∉ free
  distinct : ∀ va ∈ u.live, ∀ va' ∈ u.live,
    (u.space.pagetable.entry (va / PGSIZE)).pa = (u.space.pagetable.entry (va' / PGSIZE)).pa →
      (u.space.pagetable.entry (va / PGSIZE)).pa = 0 ∨ va = va'

/-- What holds of a process that uses its pages: nothing is mapped above its
heap, and there are no tables from the next multiple of 512 pages on. -/
structure PageUser.Inv (u : PageUser T) : Prop where
  pages : u.space.PageHeap
  split : (u.live ++ u.space.freePages).Perm u.space.heapPages
  clear : ∀ v, u.space.heapTop / PGSIZE ≤ v → v < heapReach →
    (u.space.pagetable.entry v).v = false
  tables : ∀ v, u.space.heapTop / PGSIZE ≤ v → v < heapReach → v % 512 = 0 →
    u.space.pagetable.walks v = false
  budget : ∃ free, u.Budget free

section

variable {u u' : PageUser T} {c c' : Space} {va : Nat}

section

omit [RefTable T]

theorem Space.heapPages_nodup (c : Space) : c.heapPages.Nodup := by
  refine List.Nodup.map ?_ nodup_range
  intro i j hij
  have hij' : c.heapBottom + i * PGSIZE = c.heapBottom + j * PGSIZE := hij
  unfold PGSIZE at hij'
  omega

theorem PageUser.Inv.nodup (h : u.Inv) : (u.live ++ u.space.freePages).Nodup :=
  h.split.nodup_iff.mpr (Space.heapPages_nodup _)

theorem PageUser.Inv.live_page (h : u.Inv) (hva : va ∈ u.live) : u.space.HeapPage va :=
  h.pages.mem_heapPages.mp (h.split.subset (mem_append_left _ hva))

theorem PageUser.Inv.live_free (h : u.Inv) (hva : va ∈ u.live) : va ∉ u.space.freePages :=
  fun hmem => (nodup_append.mp h.nodup).2.2 va hva va hmem rfl

theorem PageUser.Inv.top_lt (h : u.Inv) : u.space.heapTop / PGSIZE < heapReach := by
  obtain ⟨free, hb⟩ := h.budget
  have hbound := hb.bound
  have htop := h.pages.top
  have hbottom := h.pages.bottom
  unfold heapReach USER_FREE_ADDRESS_START PGSIZE at *
  omega

end

omit [RefTable T] in
theorem PageUser.Inv.next_mod (h : u.Inv) : u.space.nextPage % PGSIZE = 0 := by
  unfold Space.nextPage
  cases hfree : u.space.freePages with
  | nil => exact h.pages.top_mod
  | cons va rest => exact (h.pages.reclaimed va (by rw [hfree]; simp)).1.2.2

omit [RefTable T] in
theorem PageUser.Inv.next_ne (h : u.Inv) (hva : va ∈ u.live) :
    va / PGSIZE ≠ u.space.nextPage / PGSIZE := by
  have hpage := h.live_page hva
  unfold Space.nextPage
  cases hfree : u.space.freePages with
  | nil =>
    have hlt := hpage.2.1
    have htop := h.pages.top_mod
    show va / PGSIZE ≠ u.space.heapTop / PGSIZE
    unfold PGSIZE at *
    omega
  | cons va' rest =>
    have hmem : va' ∈ u.space.freePages := by
      rw [hfree]
      simp
    intro heq
    have hsame : va = va' := hpage.eq_of_vpn (h.pages.reclaimed va' hmem).1 heq
    exact h.live_free hva (hsame ▸ hmem)

theorem PageUser.Inv.allocate_budget {s1 s' : Pmm T} {pa : Nat} (h : u.Inv)
    (ha : allocPage u.pmm = .ok (pa, s1))
    (hmap : userVmMap s1 u.space.pagetable u.space.nextPage PGSIZE pa
      (protToType true true false true) = .ok (s', c'.pagetable))
    (hcase : (∃ rest, u.space.freePages = u.space.nextPage :: rest ∧ c'.freePages = rest ∧
        c'.heapTop = u.space.heapTop ∧ c'.mappedInfo = u.space.mappedInfo) ∨
      (u.space.freePages = [] ∧ c'.freePages = [] ∧ u.space.nextPage = u.space.heapTop ∧
        c'.heapTop = u.space.heapTop + PGSIZE ∧
        (c'.mappedInfo 3).npages = (u.space.mappedInfo 3).npages + 1)) :
    ∃ free, PageUser.Budget { pmm := s', space := c', live := u.space.nextPage :: u.live }
      free := by
  obtain ⟨free, hb⟩ := h.budget
  obtain ⟨-, hpa, hfrom, rest, hnew, ht1⟩ := allocPage_fresh hb.listed ha
  obtain ⟨free2, ht2⟩ := userVmMap_took ht1.listed hmap
  obtain ⟨-, -, hent⟩ := userVmMap_entry h.next_mod hmap
  obtain ⟨taken, hsuffix, -⟩ := ht2.taken
  have hlen2 : free2.length ≤ rest.length := by
    rw [hsuffix, length_append]
    omega
  have hzero : 0 ∉ free := by
    intro hmem
    have hlo := (hb.listed.managed 0 hmem).2.1
    have hpos := hb.listed.start_pos
    omega
  have hsub : ∀ p ∈ free2, p ∈ free := fun p hp => ht1.mem_of_mem (ht2.mem_of_mem hp)
  have hnext : (c'.pagetable.entry (u.space.nextPage / PGSIZE)).pa = pa := by
    rw [hent, if_pos rfl]
    exact leaf_pa_of_aligned _ hpa
  have hold : ∀ va ∈ u.live, c'.pagetable.entry (va / PGSIZE)
      = u.space.pagetable.entry (va / PGSIZE) := by
    intro va hva
    rw [hent, if_neg (h.next_ne hva)]
  -- a frame of another page is not the one just taken
  have hother : ∀ va ∈ u.live, (u.space.pagetable.entry (va / PGSIZE)).pa = pa → pa = 0 := by
    intro va hva heq
    rcases hfrom with h0 | hmem
    · exact h0
    · exact absurd (heq ▸ hmem) (hb.apart va hva)
  refine ⟨free2, ht2.listed, ?_, ?_, ?_⟩
  · have hbound := hb.bound
    obtain ⟨-, -, -, ⟨-, hnil, hl1⟩ | ⟨rest', -, hcons, hl1⟩⟩ := allocPage_inv hb.listed ha
    · -- no page was left: the tables must have been there
      have hfree2 : free2 = [] := by
        rw [eq_nil_iff_forall_not_mem]
        intro p hp
        have hmem := hsub p hp
        simp [hnil] at hmem
      rcases hcase with ⟨rest'', hcons, hrest, -, hinfo⟩ | ⟨hfree, hrest, htop, -, hn⟩
      · rw [hinfo, hfree2]
        simp only [length_nil, Nat.zero_sub]
        omega
      · have hwalks := userVmMap_dry h.next_mod hl1 hmap
        rw [htop] at hwalks
        have hmod : u.space.heapTop / PGSIZE % 512 ≠ 0 := by
          intro hmod
          simp [h.tables _ le_rfl h.top_lt hmod] at hwalks
        have htop' := h.pages.top
        rw [h.pages.bottom] at htop'
        rw [hn, hfree2]
        simp only [length_nil, Nat.zero_sub]
        have hne : (u.space.mappedInfo 3).npages ≠ maxFrames := by
          intro heq
          rw [heq] at htop'
          rw [htop'] at hmod
          exact hmod (by decide)
        omega
    · have hlen : free.length = rest.length + 1 := by
        have hrest : rest = rest' := ht1.listed.chain.unique hl1.chain
        rw [hcons, hrest, length_cons]
      rcases hcase with ⟨rest'', hcons', hrest, -, hinfo⟩ | ⟨hfree, hrest, -, -, hn⟩
      · rw [hcons', length_cons] at hbound
        rw [hinfo, hrest]
        omega
      · rw [hfree, length_nil] at hbound
        rw [hn, hrest, length_nil]
        omega
  · intro va hva
    rcases mem_cons.mp hva with rfl | hva
    · rw [hnext]
      rcases hfrom with h0 | -
      · rw [h0]
        exact fun hmem => hzero (hsub 0 hmem)
      · exact fun hmem => hnew (ht2.mem_of_mem hmem)
    · rw [hold va hva]
      exact fun hmem => hb.apart va hva (hsub _ hmem)
  · intro va hva va' hva' heq
    have heq' := heq
    rcases mem_cons.mp hva with rfl | hva
    · rcases mem_cons.mp hva' with rfl | hva'
      · exact .inr rfl
      · rw [hnext, hold va' hva'] at heq'
        rw [hnext]
        exact .inl (hother va' hva' heq'.symm)
    · rcases mem_cons.mp hva' with rfl | hva'
      · rw [hnext, hold va hva] at heq'
        rw [hold va hva, heq']
        exact .inl (hother va hva heq')
      · rw [hold va hva, hold va' hva'] at heq'
        rw [hold va hva]
        exact hb.distinct va hva va' hva' heq'

theorem PageUser.Inv.allocate {s' : Pmm T} (h : u.Inv)
    (hs : sysUserAllocatePage u.pmm u.space = .ok (s', c')) :
    PageUser.Inv { pmm := s', space := c', live := u.space.nextPage :: u.live } := by
  obtain ⟨hpages, hbottom, pa, s1, ha, hmap, hcase⟩ := sysUserAllocatePage_pages h.pages hs
  obtain ⟨-, -, hent⟩ := userVmMap_entry h.next_mod hmap
  -- the pages from the new top on lie above the one that is returned
  have habove : ∀ v, c'.heapTop / PGSIZE ≤ v →
      u.space.heapTop / PGSIZE ≤ v ∧ u.space.nextPage / PGSIZE < v := by
    intro v hv
    rcases hcase with ⟨rest, hcons, -, htop, -⟩ | ⟨-, -, hnext, htop, -⟩
    · have hlt := (h.pages.reclaimed u.space.nextPage (by rw [hcons]; simp)).1
      have hmod := h.pages.top_mod
      unfold Space.HeapPage PGSIZE at *
      omega
    · rw [htop] at hv
      rw [hnext]
      unfold PGSIZE at *
      omega
  refine ⟨hpages, ?_, ?_, ?_, h.allocate_budget ha hmap hcase⟩
  · rcases hcase with ⟨rest, hcons, hrest, -, hinfo⟩ | ⟨hfree, hrest, hnext, -, hn⟩
    · have hpages' : c'.heapPages = u.space.heapPages := by
        unfold Space.heapPages
        rw [hinfo, hbottom]
      have hsplit := h.split
      rw [hcons] at hsplit
      rw [hrest, hpages']
      exact perm_middle.symm.trans hsplit
    · have hpages' : c'.heapPages = u.space.heapPages ++ [u.space.nextPage] := by
        rw [Space.heapPages, hn, hbottom, range_succ, map_append, hnext, h.pages.top]
        rfl
      have hsplit := h.split
      rw [hfree, append_nil] at hsplit
      rw [hrest, hpages', append_nil]
      exact (perm_append_singleton _ _).symm.trans (hsplit.append_right _)
  · intro v hv hlt
    obtain ⟨hold, hne⟩ := habove v hv
    rw [hent, if_neg (Nat.ne_of_gt hne)]
    exact h.clear v hold hlt
  · intro v hv hlt hmod
    obtain ⟨hold, hgt⟩ := habove v hv
    have hblock : ∀ w, Touched u.space.nextPage w → v / 512 ≠ w / 512 := by
      intro w hw
      rw [touched_of_aligned h.next_mod hw]
      omega
    by_contra hwalks
    have hwalks' : u.space.pagetable.walks v = true :=
      userVmMap_walks hmap hblock (by simpa using hwalks)
    simp [h.tables v hold hlt hmod] at hwalks'

/-! ### Giving a page back -/

theorem PageUser.Inv.free {s' : Pmm T} (h : u.Inv) (hva : va ∈ u.live)
    (hs : sysUserFreePage u.pmm u.space va = .ok (s', c')) :
    PageUser.Inv { pmm := s', space := c', live := u.live.erase va } := by
  have hpage := h.live_page hva
  have hnd := (nodup_append.mp h.nodup).1
  obtain ⟨hpages, hwalks, hfree, rfl⟩ := sysUserFreePage_pages h.pages hpage (h.live_free hva) hs
  have hent : ∀ v, (u.space.pagetable.invalidate (va / PGSIZE)).entry v
      = if v = va / PGSIZE then { u.space.pagetable.pte (va / PGSIZE) with v := false }
        else u.space.pagetable.entry v := entry_set _ hwalks
  refine ⟨hpages, ?_, ?_, ?_, ?_⟩
  · have herase : (va :: u.live.erase va).Perm u.live := (perm_cons_erase hva).symm
    exact (perm_middle.trans (herase.append_right _)).trans h.split
  · intro v hv hlt
    rw [hent]
    split
    · rfl
    · exact h.clear v hv hlt
  · exact h.tables
  · obtain ⟨free, hb⟩ := h.budget
    obtain ⟨free', hl', hcase⟩ := freePage_listed hb.listed (hb.apart va hva) hfree
    have hframe := freePage_managed hfree
    have hpos := hb.listed.start_pos
    have hother : ∀ va' ∈ u.live.erase va, va' ∈ u.live ∧
        (u.space.pagetable.invalidate (va / PGSIZE)).entry (va' / PGSIZE)
          = u.space.pagetable.entry (va' / PGSIZE) ∧ va' ≠ va := by
      intro va' hva'
      have hne : va' ≠ va := by
        rintro rfl
        exact (List.Nodup.not_mem_erase hnd) hva'
      have hmem := mem_of_mem_erase hva'
      refine ⟨hmem, ?_, hne⟩
      rw [hent, if_neg (fun heq => hne ((h.live_page hmem).eq_of_vpn hpage heq))]
    refine ⟨free', hl', ?_, ?_, ?_⟩
    · have hbound := hb.bound
      rcases hcase with rfl | rfl
      · simp only [length_cons]
        omega
      · simp only [length_cons]
        omega
    · intro va' hva'
      obtain ⟨hmem, hsame, hne⟩ := hother va' hva'
      rw [hsame]
      rcases hcase with rfl | rfl
      · exact hb.apart va' hmem
      · rw [mem_cons, not_or]
        refine ⟨fun heq => ?_, hb.apart va' hmem⟩
        rcases hb.distinct va' hmem va hva heq with h0 | h0
        · rw [heq] at h0
          have hlo := hframe.2.1
          omega
        · exact hne h0
    · intro va1 h1 va2 h2 heq
      obtain ⟨hmem1, hsame1, -⟩ := hother va1 h1
      obtain ⟨hmem2, hsame2, -⟩ := hother va2 h2
      have heq' := heq
      rw [hsame1, hsame2] at heq'
      rw [hsame1]
      exact hb.distinct va1 hmem1 va2 hmem2 heq'

theorem PageUser.Inv.step {call : PageCall} (h : u.Inv) (hok : u.Allowed call)
    (hs : u.step call = .ok u') : u'.Inv := by
  cases call with
  | allocate =>
    simp only [PageUser.step, bind_eq_ok] at hs
    obtain ⟨⟨pmm, c⟩, ha, ⟨⟩⟩ := hs
    exact h.allocate ha
  | free va =>
    simp only [PageUser.step, bind_eq_ok] at hs
    obtain ⟨⟨pmm, c⟩, hf, ⟨⟩⟩ := hs
    exact h.free hok.1 hf

end

/-! ## A process just loaded -/

def NoTables (pt : PageTable) : Prop :=
  ∀ v, USER_FREE_ADDRESS_START / PGSIZE ≤ v → v < heapReach → pt.walks v = false

section

variable {s s' : Pmm T} {c c' : Space} {pt pt' : PageTable} {va pa trapSec : Nat} {perm : Perm}
  {free : List Nat}

theorem NoTables.map (h : NoTables pt) (hmap : userVmMap s pt va PGSIZE pa perm = .ok (s', pt'))
    (hout : va + PGSIZE ≤ USER_FREE_ADDRESS_START ∨ heapReach * PGSIZE ≤ va) : NoTables pt' := by
  intro v hlo hhi
  have hblock : ∀ w, Touched va w → v / 512 ≠ w / 512 := by
    rintro w ⟨hw, hw'⟩
    unfold heapReach maxFrames PKE_MAX_ALLOWABLE_RAM USER_FREE_ADDRESS_START PGSIZE at *
    omega
  by_contra hwalks
  have hwalks' := userVmMap_walks hmap hblock (by simpa using hwalks)
  simp [h v hlo hhi] at hwalks'

end

/-! ## Every run -/

instance PageUser.Allowed.decidable (u : PageUser T) : ∀ call, Decidable (u.Allowed call)
  | .allocate => isTrue trivial
  | .free _ => inferInstanceAs (Decidable (_ ∧ _))

end CabbagePKE
