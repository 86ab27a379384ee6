import CabbagePKE.Heap.Exec
import CabbagePKE.Vm.Inversion

/-!
# The pages of the heap

The heap of a process is kept in four places: `heap_top`, the page count of its
region, the stack of reclaimed addresses and the page table. They agree as long
as only `sys_user_allocate_page`, `sys_user_free_page` and `vm_malloc` change
them: every page below `heap_top` is either mapped or reclaimed.
-/

namespace CabbagePKE

open Lib Function List

variable {T : Type} [RefTable T]

def Space.HeapPage (c : Space) (va : Nat) : Prop :=
  c.heapBottom ≤ va ∧ va < c.heapTop ∧ va % PGSIZE = 0

def Space.heapPages (c : Space) : List Nat :=
  (List.range (c.mappedInfo 3).npages).map (fun i => c.heapBottom + i * PGSIZE)

structure Space.PageHeap (c : Space) : Prop where
  bottom : c.heapBottom = USER_FREE_ADDRESS_START
  top : c.heapTop = c.heapBottom + (c.mappedInfo 3).npages * PGSIZE
  top_le : c.heapTop ≤ MAXVA
  kind : (c.mappedInfo 3).segType = .heap
  nodup : c.freePages.Nodup
  reclaimed : ∀ va ∈ c.freePages, c.HeapPage va ∧ (c.pagetable.entry (va / PGSIZE)).v = false
  live : ∀ va, c.HeapPage va → va ∉ c.freePages → PageMapped c.pagetable va

/-- The address that `sys_user_allocate_page` returns. -/
def Space.nextPage (c : Space) : Nat := c.freePages.headD c.heapTop

section

variable {c c' : Space} {s s' : Pmm T} {pt : PageTable} {va pa : Nat}

section

omit [RefTable T]

theorem Space.PageHeap.bottom_mod (h : c.PageHeap) : c.heapBottom % PGSIZE = 0 := by
  rw [h.bottom]
  decide

theorem Space.PageHeap.top_mod (h : c.PageHeap) : c.heapTop % PGSIZE = 0 := by
  have hb := h.bottom_mod
  rw [h.top]
  unfold PGSIZE at *
  omega

theorem Space.PageHeap.mem_heapPages (h : c.PageHeap) : va ∈ c.heapPages ↔ c.HeapPage va := by
  have hb := h.bottom_mod
  have ht := h.top
  unfold Space.heapPages Space.HeapPage
  rw [mem_map]
  constructor
  · rintro ⟨i, hi, rfl⟩
    rw [mem_range] at hi
    unfold PGSIZE at *
    omega
  · rintro ⟨hlo, hhi, hmod⟩
    refine ⟨(va - c.heapBottom) / PGSIZE, ?_, ?_⟩
    · rw [mem_range]
      unfold PGSIZE at *
      omega
    · unfold PGSIZE at *
      omega

theorem Space.HeapPage.eq_of_vpn {va' : Nat} (h : c.HeapPage va) (h' : c.HeapPage va')
    (heq : va / PGSIZE = va' / PGSIZE) : va = va' := by
  have h1 := h.2.2
  have h2 := h'.2.2
  unfold PGSIZE at *
  omega

theorem Space.HeapEmpty.pageHeap (h : c.HeapEmpty) : c.PageHeap := by
  have hnone : ∀ va, ¬ c.HeapPage va := by
    intro va hva
    have h1 := hva.1
    have h2 := hva.2.1
    rw [h.bottom] at h1
    rw [h.top] at h2
    omega
  refine ⟨h.bottom, ?_, ?_, ?_, ?_, ?_, fun va hva => absurd hva (hnone va)⟩
  · rw [h.top, h.bottom, h.region]
    simp
  · rw [h.top]
    decide
  · rw [h.region]
  · rw [h.reclaimed]
    exact nodup_nil
  · rw [h.reclaimed]
    simp

theorem pageMapped_of_entry {x : Nat} {pt' : PageTable}
    (hent : ∀ vpn, pt'.entry vpn = if vpn = va / PGSIZE
      then Pte.leaf pa (protToType true true false true) else pt.entry vpn)
    (hx : x < MAXVA) (h : x / PGSIZE = va / PGSIZE ∨ PageMapped pt x) : PageMapped pt' x := by
  rw [PageMapped, hent]
  by_cases heq : x / PGSIZE = va / PGSIZE
  · rw [if_pos heq]
    exact ⟨hx, rfl, .inl rfl⟩
  · rw [if_neg heq]
    exact h.resolve_left heq

theorem Space.PageHeap.grow (h : c.PageHeap) (hlt : c.heapTop < MAXVA)
    (hent : ∀ vpn, pt.entry vpn = if vpn = c.heapTop / PGSIZE
      then Pte.leaf pa (protToType true true false true) else c.pagetable.entry vpn) :
    Space.PageHeap { c with
      pagetable := pt
      heapTop := c.heapTop + PGSIZE
      mappedInfo := update c.mappedInfo 3
        { c.mappedInfo 3 with npages := (c.mappedInfo 3).npages + 1 } } := by
  have htm := h.top_mod
  have hbound : c.heapTop + PGSIZE ≤ MAXVA := by
    unfold MAXVA PGSIZE at *
    omega
  refine ⟨h.bottom, ?_, hbound, ?_, h.nodup, ?_, ?_⟩
  · simp only [update_self]
    have ht := h.top
    unfold PGSIZE at *
    omega
  · simp only [update_self]
    exact h.kind
  · intro va hva
    obtain ⟨⟨hlo, hhi, hmod⟩, hv⟩ := h.reclaimed va hva
    refine ⟨⟨hlo, Nat.lt_add_right _ hhi, hmod⟩, ?_⟩
    have hne : va / PGSIZE ≠ c.heapTop / PGSIZE := by
      unfold PGSIZE at *
      omega
    rwa [hent, if_neg hne]
  · rintro va ⟨hlo, hhi, hmod⟩ hnot
    have hhi' : va < c.heapTop + PGSIZE := hhi
    apply pageMapped_of_entry hent (by omega)
    by_cases hva : va < c.heapTop
    · exact .inr (h.live va ⟨hlo, hva, hmod⟩ hnot)
    · refine .inl ?_
      unfold PGSIZE at *
      omega

theorem Space.PageHeap.reuse {rest : List Nat} (h : c.PageHeap) (hfree : c.freePages = va :: rest)
    (hent : ∀ vpn, pt.entry vpn = if vpn = va / PGSIZE
      then Pte.leaf pa (protToType true true false true) else c.pagetable.entry vpn) :
    Space.PageHeap { c with pagetable := pt, freePages := rest } := by
  have hnd := h.nodup
  rw [hfree, nodup_cons] at hnd
  have hpage := (h.reclaimed va (by rw [hfree]; simp)).1
  refine ⟨h.bottom, h.top, h.top_le, h.kind, hnd.2, ?_, ?_⟩
  · intro x hx
    obtain ⟨hxp, hv⟩ := h.reclaimed x (by rw [hfree]; exact mem_cons_of_mem va hx)
    refine ⟨hxp, ?_⟩
    have hne : x / PGSIZE ≠ va / PGSIZE := by
      intro heq
      exact hnd.1 (hxp.eq_of_vpn hpage heq ▸ hx)
    rwa [hent, if_neg hne]
  · intro x hx hnot
    have hxp := hx
    have hlt : x < MAXVA := hxp.2.1.trans_le h.top_le
    apply pageMapped_of_entry hent hlt
    by_cases heq : x = va
    · exact .inl (heq ▸ rfl)
    · refine .inr (h.live x hxp ?_)
      rw [hfree, mem_cons]
      exact not_or.mpr ⟨heq, hnot⟩

theorem Space.PageHeap.reclaim (h : c.PageHeap) (hva : c.HeapPage va) (hnot : va ∉ c.freePages)
    (hwalks : c.pagetable.walks (va / PGSIZE) = true) :
    Space.PageHeap { c with
      pagetable := c.pagetable.invalidate (va / PGSIZE)
      freePages := va :: c.freePages } := by
  have hent : ∀ vpn, (c.pagetable.invalidate (va / PGSIZE)).entry vpn
      = if vpn = va / PGSIZE then { c.pagetable.pte (va / PGSIZE) with v := false }
        else c.pagetable.entry vpn := entry_set _ hwalks
  refine ⟨h.bottom, h.top, h.top_le, h.kind, nodup_cons.mpr ⟨hnot, h.nodup⟩, ?_, ?_⟩
  · intro x hx
    rw [hent]
    rcases mem_cons.mp hx with rfl | hx
    · rw [if_pos rfl]
      exact ⟨hva, rfl⟩
    · obtain ⟨hxp, hv⟩ := h.reclaimed x hx
      split
      · exact ⟨hxp, rfl⟩
      · exact ⟨hxp, hv⟩
  · intro x hx hxn
    have hxp := hx
    rw [mem_cons, not_or] at hxn
    have hne : x / PGSIZE ≠ va / PGSIZE := fun heq => hxn.1 (hxp.eq_of_vpn hva heq)
    rw [PageMapped, hent, if_neg hne]
    exact h.live x hxp hxn.2

end

/-! ## The system calls -/

theorem sysUserAllocatePage_pages (h : c.PageHeap) (hs : sysUserAllocatePage s c = .ok (s', c')) :
    c'.PageHeap ∧ c'.heapBottom = c.heapBottom ∧ ∃ pa s1, allocPage s = .ok (pa, s1) ∧
      userVmMap s1 c.pagetable c.nextPage PGSIZE pa (protToType true true false true)
        = .ok (s', c'.pagetable) ∧
      ((∃ rest, c.freePages = c.nextPage :: rest ∧ c'.freePages = rest ∧
          c'.heapTop = c.heapTop ∧ c'.mappedInfo = c.mappedInfo) ∨
        (c.freePages = [] ∧ c'.freePages = [] ∧ c.nextPage = c.heapTop ∧
          c'.heapTop = c.heapTop + PGSIZE ∧
          (c'.mappedInfo 3).npages = (c.mappedInfo 3).npages + 1)) := by
  obtain ⟨pa, s1, ha, ⟨va, rest, pt, hfree, hlt, hmap, rfl⟩ | ⟨hfree, pt, hmap, rfl⟩⟩ :=
    sysUserAllocatePage_inv hs
  · have hnext : c.nextPage = va := by rw [Space.nextPage, hfree]; rfl
    have hmod : va % PGSIZE = 0 := (h.reclaimed va (by rw [hfree]; simp)).1.2.2
    obtain ⟨-, -, hent⟩ := userVmMap_entry hmod hmap
    refine ⟨h.reuse hfree hent, rfl, pa, s1, ha, hnext ▸ hmap, .inl ?_⟩
    exact ⟨rest, by rw [hnext, hfree], rfl, rfl, rfl⟩
  · have hnext : c.nextPage = c.heapTop := by rw [Space.nextPage, hfree]; rfl
    obtain ⟨-, hlt, hent⟩ := userVmMap_entry h.top_mod hmap
    have htop : u64 (c.heapTop + PGSIZE) = c.heapTop + PGSIZE := by
      apply u64_of_lt
      unfold MAXVA PGSIZE at *
      omega
    rw [htop]
    refine ⟨h.grow hlt hent, rfl, pa, s1, ha, hnext ▸ hmap, .inr ?_⟩
    exact ⟨hfree, hfree, hnext, rfl, by simp only [update_self]⟩

theorem sysUserFreePage_pages (h : c.PageHeap) (hva : c.HeapPage va) (hnot : va ∉ c.freePages)
    (hs : sysUserFreePage s c va = .ok (s', c')) :
    c'.PageHeap ∧ c.pagetable.walks (va / PGSIZE) = true ∧
      freePage s (c.pagetable.entry (va / PGSIZE)).pa = .ok s' ∧
      c' = { c with
        pagetable := c.pagetable.invalidate (va / PGSIZE)
        freePages := va :: c.freePages } := by
  obtain ⟨pt, hun, rfl⟩ := sysUserFreePage_inv hs
  obtain ⟨-, hwalks, hfree, rfl⟩ := userVmUnmap_inv hun
  exact ⟨h.reclaim hva hnot hwalks, hwalks, hfree, rfl⟩

end

/-! ## `vm_malloc` -/

/-- A property of the process that stores into the heap, changes of
`first_free_block` and new pages keep. -/
structure KeptByMalloc (P : HeapProc T → Prop) : Prop where
  mem : ∀ t m, P t → P (t.withMem m)
  first : ∀ t b, P t → P { t with firstFreeBlock := b }
  page : ∀ t t' va, P t → addHeapPage t = .ok (va, t') → P t'

section

variable {P : HeapProc T → Prop} {t t' : HeapProc T} {va v n p : Nat}

theorem KeptByMalloc.setCapacity (hP : KeptByMalloc P) (h : P t)
    (hs : setCapacity t va v = .ok t') : P t' := by
  obtain ⟨-, rfl⟩ := headAt_ok_of_setCapacity hs
  exact hP.mem t _ h

theorem KeptByMalloc.setNext (hP : KeptByMalloc P) (h : P t)
    (hs : setNext t va v = .ok t') : P t' := by
  obtain rfl := setNext_inv hs
  exact hP.mem t _ h

theorem KeptByMalloc.linkAfter (hP : KeptByMalloc P) (h : P t)
    (hs : linkAfter t v va = .ok t') : P t' := by
  unfold CabbagePKE.linkAfter at hs
  split at hs
  · cases hs
    exact hP.first t va h
  · exact hP.setNext h hs

theorem KeptByMalloc.tryAllocFreeBlock (hP : KeptByMalloc P) (h : P t)
    (hs : tryAllocFreeBlock t = .ok t') : P t' := by
  unfold CabbagePKE.tryAllocFreeBlock at hs
  split at hs
  · simp only [bind_eq_ok] at hs
    obtain ⟨⟨va, t1⟩, h1, t2, h2, t3, h3, ⟨⟩⟩ := hs
    exact hP.first t3 va (hP.setNext (hP.setCapacity (hP.page t t1 va h h1) h2) h3)
  · cases hs
    exact h

theorem KeptByMalloc.growHeap (hP : KeptByMalloc P) {lastVa need' : Nat} :
    ∀ (fuel : Nat) (t : HeapProc T) (need : Nat), P t →
      growHeap fuel t need = .ok (lastVa, need', t') → P t' := by
  intro fuel
  induction fuel with
  | zero =>
    intro t need h hs
    cases hs
  | succ fuel ih =>
    intro t need h hs
    rw [CabbagePKE.growHeap, bind_eq_ok] at hs
    obtain ⟨⟨va, t1⟩, h1, hs⟩ := hs
    have hP1 := hP.page t t1 va h h1
    dsimp only at hs
    generalize (if PGSIZE < need then need - PGSIZE else need) = rest at hs
    by_cases hmore : PGSIZE < rest
    · rw [if_pos hmore] at hs
      exact ih t1 rest hP1 hs
    · rw [if_neg hmore] at hs
      cases hs
      exact hP1

theorem KeptByMalloc.growBlock (hP : KeptByMalloc P) {need maxVa maxPre : Nat} (h : P t)
    (hs : growBlock t need maxVa maxPre = .ok (p, t')) : P t' := by
  simp only [CabbagePKE.growBlock, bind_eq_ok] at hs
  obtain ⟨_, -, t1, h1, t2, h2, ⟨lastVa, need', t3⟩, h3, hs⟩ := hs
  have hP3 := hP.growHeap _ _ _ (hP.setCapacity (hP.setNext h h1) h2) h3
  split at hs
  · simp only [bind_eq_ok] at hs
    obtain ⟨t4, h4, t5, h5, t6, h6, hs⟩ := hs
    cases hs
    exact hP.linkAfter (hP.setNext (hP.setCapacity hP3 h4) h5) h6
  · cases hs
    exact hP3

theorem KeptByMalloc.takeFrom (hP : KeptByMalloc P) {need cur pre : Nat} (h : P t)
    (hs : takeFrom t need cur pre = .ok (p, t')) : P t' := by
  unfold CabbagePKE.takeFrom at hs
  dsimp only at hs
  split at hs
  · simp only [bind_eq_ok] at hs
    obtain ⟨t1, h1, hs⟩ := hs
    cases hs
    exact hP.linkAfter h h1
  · simp only [bind_eq_ok] at hs
    obtain ⟨t1, h1, t2, h2, t3, h3, t4, h4, hs⟩ := hs
    cases hs
    exact hP.linkAfter (hP.setNext (hP.setCapacity (hP.setCapacity h h1) h2) h3) h4

theorem KeptByMalloc.vmMalloc (hP : KeptByMalloc P) (h : P t)
    (hs : vmMalloc t n = .ok (p, t')) : P t' := by
  simp only [CabbagePKE.vmMalloc, allocFromFreeBlock, bind_eq_ok] at hs
  obtain ⟨t1, h1, r, -, hs⟩ := hs
  have hP1 := hP.tryAllocFreeBlock h h1
  cases r with
  | none =>
    simp only [allocFromNewBlock, bind_eq_ok] at hs
    obtain ⟨⟨maxVa, maxPre⟩, -, hs⟩ := hs
    exact hP.growBlock hP1 hs
  | some r => exact hP.takeFrom hP1 hs

theorem KeptByMalloc.vmFree (hP : KeptByMalloc P) (h : P t) (hs : vmFree t va = .ok t') : P t' := by
  simp only [CabbagePKE.vmFree, bind_eq_ok] at hs
  obtain ⟨t1, h1, hs⟩ := hs
  cases hs
  exact hP.first t1 _ (hP.setNext h h1)

end

theorem pageHeap_kept (u : HeapUser T) : KeptByMalloc (fun t => (u.withProc t).space.PageHeap) := by
  constructor
  · intro t m h
    exact h
  · intro t b h
    exact h
  · intro t t' va h ha
    simp only [addHeapPage, bind_eq_ok] at ha
    obtain ⟨⟨page, pmm1⟩, -, ha⟩ := ha
    split at ha
    · cases ha
    simp only [bind_eq_ok] at ha
    obtain ⟨⟨pmm2, pt⟩, hmap, -, ⟨⟩⟩ := ha
    obtain ⟨-, hlt, hent⟩ := userVmMap_entry h.top_mod hmap
    have hgrow := h.grow hlt hent
    have htop : u64 (t.heapTop + PGSIZE) = t.heapTop + PGSIZE := by
      apply u64_of_lt
      have hlt' : t.heapTop < MAXVA := hlt
      unfold MAXVA PGSIZE at *
      omega
    have hpages : (t.npages + 1) % 2 ^ 32 = t.npages + 1 := by
      have ht : t.heapTop = u.space.heapBottom + t.npages * PGSIZE := by
        have := h.top
        simpa [HeapUser.withProc] using this
      have hlt' : t.heapTop < MAXVA := hlt
      apply Nat.mod_eq_of_lt
      unfold MAXVA PGSIZE at *
      omega
    simp only [HeapUser.withProc, htop, hpages]
    simpa [HeapUser.withProc] using hgrow

def HeapUser.Allowed (u : HeapUser T) : HeapCall → Prop
  | .freePage va => u.space.HeapPage va ∧ va ∉ u.space.freePages
  | _ => True

theorem HeapUser.step_pageHeap {u u' : HeapUser T} {call : HeapCall} (h : u.space.PageHeap)
    (hok : u.Allowed call) (hs : u.step call = .ok u') : u'.space.PageHeap := by
  have hself : (u.withProc u.proc).space.PageHeap := by
    have heq : (u.withProc u.proc).space = u.space := by simp [HeapUser.withProc, HeapUser.proc]
    rwa [heq]
  cases call with
  | malloc n =>
    simp only [step, bind_eq_ok] at hs
    obtain ⟨⟨p, t⟩, hm, ⟨⟩⟩ := hs
    exact (pageHeap_kept u).vmMalloc hself hm
  | free va =>
    simp only [step, bind_eq_ok] at hs
    obtain ⟨t, hf, hs⟩ := hs
    cases hs
    exact (pageHeap_kept u).vmFree hself hf
  | allocatePage =>
    simp only [step, bind_eq_ok] at hs
    obtain ⟨⟨pmm, c⟩, ha, ⟨⟩⟩ := hs
    exact (sysUserAllocatePage_pages h ha).1
  | freePage va =>
    simp only [step, bind_eq_ok] at hs
    obtain ⟨⟨pmm, c⟩, hf, ⟨⟩⟩ := hs
    exact (sysUserFreePage_pages h hok.1 hok.2 hf).1

/-- The processes that come about from a newly loaded one by calls that use
the heap; pages are freed only while they are live. -/
def HeapUser.Run (u₀ u : HeapUser T) : Prop :=
  Reaches HeapUser.step HeapUser.Allowed u₀ u

theorem HeapUser.Run.pageHeap {u0 u : HeapUser T} (h0 : u0.space.HeapEmpty) (h : u0.Run u) :
    u.space.PageHeap :=
  Reaches.invariant (fun u => u.space.PageHeap) h0.pageHeap
    (fun _ _ _ hi hok hs => HeapUser.step_pageHeap hi hok hs) h

end CabbagePKE
