import CabbagePKE.Vm.Space

/-!
# What the operations on a space did

For each operation of `Vm.Space` the facts that follow from its success:
which pages it took, which entries it changed, which bytes it wrote. They
hold for any reference table.
-/

namespace CabbagePKE

open Lib Function

variable {T : Type} [RefTable T]
  {s s' : Pmm T} {c c' parent : Space} {pt pt' : PageTable} {va pa : Nat}
  {trapSec trapframe userStack : Nat} {garbage : Nat → Bool}

/-! ## Memory -/

theorem memset_eq {T : Type} {s s' : Pmm T} {p n : Nat} (h : memset s p n = .ok s') :
    p ≠ 0 ∧ s' = { s with mem := fillBytes s.mem p 0 n } := by
  unfold memset at h
  split at h
  · cases h
  · cases h
    exact ⟨by assumption, rfl⟩

theorem memcpy_eq {T : Type} {s s' : Pmm T} {dst src n : Nat} (h : memcpy s dst src n = .ok s') :
    dst ≠ 0 ∧ src ≠ 0 ∧ s' = { s with mem := copyBytes s.mem dst s.mem src n } := by
  unfold memcpy at h
  split at h
  · cases h
  · cases h
    exact ⟨by omega, by omega, rfl⟩

/-! ## Pages -/

theorem leaf_pa_of_aligned {pa : Nat} (perm : Perm) (h : pa % PGSIZE = 0) :
    (Pte.leaf pa perm).pa = pa := by
  unfold Pte.leaf ROUNDDOWN PGSIZE at *
  simp only
  omega

theorem lookupPa_mapped (h : lookupPa pt va ≠ 0) :
    va < MAXVA ∧ (pt.entry (va / PGSIZE)).v = true ∧
      lookupPa pt va = (pt.entry (va / PGSIZE)).pa := by
  unfold lookupPa at h ⊢
  split at h
  · exact absurd rfl h
  · rename_i hlt
    simp only at h
    split at h
    · rename_i hv
      rw [if_neg hlt]
      rw [if_pos hv]
      exact ⟨by omega, hv.1, rfl⟩
    · exact absurd rfl h

theorem cowVmMap_inv (h : cowVmMap s pt va pa = .ok (s', pt')) :
    ∃ s1 pt1, pageWalk s pt va = .ok (true, s1, pt1) ∧ addRef s1 pa = .ok s' ∧
      pt' = pt1.set (va / PGSIZE) (Pte.cow pa) := by
  simp only [cowVmMap, bind_eq_ok] at h
  obtain ⟨⟨found, s1, pt1⟩, hw, h⟩ := h
  cases found with
  | false => simp at h
  | true =>
    simp only [Bool.not_true, Bool.false_eq_true, if_false, bind_eq_ok] at h
    obtain ⟨s2, hr, h⟩ := h
    cases h
    exact ⟨s1, pt1, hw, hr, rfl⟩

theorem cowVmMap_entry (h : cowVmMap s pt va pa = .ok (s', pt')) :
    va < MAXVA ∧ pt'.dir = pt.dir ∧
      ∀ vpn, pt'.entry vpn = if vpn = va / PGSIZE then Pte.cow pa else pt.entry vpn := by
  obtain ⟨s1, pt1, hw, -, rfl⟩ := cowVmMap_inv h
  obtain ⟨hent, hwalks, hlt, hdir⟩ := pageWalk_entry hw
  refine ⟨hlt, hdir, fun vpn => ?_⟩
  rw [entry_set _ (hwalks rfl), hent]

theorem userVmUnmap_inv (h : userVmUnmap s pt va = .ok (s', pt')) :
    va < MAXVA ∧ pt.walks (va / PGSIZE) = true ∧
      freePage s (pt.entry (va / PGSIZE)).pa = .ok s' ∧ pt' = pt.invalidate (va / PGSIZE) := by
  unfold userVmUnmap at h
  split at h
  · cases h
  · split at h
    · cases h
    · rename_i hlt hw
      have hwalks : pt.walks (va / PGSIZE) = true := by simpa using hw
      simp only [bind_eq_ok] at h
      obtain ⟨s1, hf, h⟩ := h
      cases h
      rw [← entry_of_walks hwalks] at hf
      exact ⟨by omega, hwalks, hf, rfl⟩

theorem translate_of_storable (h : (c.translate va).storable = true) :
    va < MAXVA ∧ c.translate va = c.pagetable.entry (va / PGSIZE) ∧
      (c.pagetable.entry (va / PGSIZE)).v = true ∧
      (c.pagetable.entry (va / PGSIZE)).perm.w = true := by
  by_cases hlt : va < MAXVA
  · have he : c.translate va = c.pagetable.entry (va / PGSIZE) := if_pos hlt
    rw [he] at h
    simp only [Pte.storable, Bool.and_eq_true] at h
    exact ⟨hlt, he, h.1.1, h.1.2⟩
  · rw [Space.translate, if_neg hlt] at h
    exact absurd h (by decide)

/-! ## Building a space -/

theorem initSpace_inv (h : initSpace s trapSec pt trapframe userStack = .ok (s', c)) :
    ∃ s1 pt1 s2 pt2 pt3,
      userVmMap s pt (USER_STACK_TOP - PGSIZE) PGSIZE userStack
        (protToType true true false true) = .ok (s1, pt1) ∧
      userVmMap s1 pt1 trapframe PGSIZE trapframe
        (protToType true true false false) = .ok (s2, pt2) ∧
      userVmMap s2 pt2 trapSec PGSIZE trapSec (protToType true false true false) = .ok (s', pt3) ∧
      c = {
        pagetable := pt3
        trapframe := trapframe
        mappedInfo := initialRegions trapframe trapSec
        totalMappedRegion := 4
        heapTop := USER_FREE_ADDRESS_START
        heapBottom := USER_FREE_ADDRESS_START
        freePages := [] } := by
  simp only [initSpace, bind_eq_ok] at h
  obtain ⟨⟨s1, pt1⟩, h1, ⟨s2, pt2⟩, h2, ⟨s3, pt3⟩, h3, h⟩ := h
  cases h
  exact ⟨s1, pt1, s2, pt2, pt3, h1, h2, h3, rfl⟩

theorem allocProcessSpace_inv (h : allocProcessSpace s trapSec = .ok (s', c)) :
    ∃ tf s1 dir s2 ks s3 stk s4 info s5 s6 pf, allocPage s = .ok (tf, s1) ∧ tf ≠ 0 ∧
      allocPage { s1 with mem := fillBytes s1.mem tf 0 trapframeSize } = .ok (dir, s2) ∧
      dir ≠ 0 ∧
      allocPage { s2 with mem := fillBytes s2.mem dir 0 PGSIZE } = .ok (ks, s3) ∧
      allocPage s3 = .ok (stk, s4) ∧
      allocPage s4 = .ok (info, s5) ∧ info ≠ 0 ∧
      initSpace { s5 with mem := fillBytes s5.mem info 0 PGSIZE } trapSec
        (.empty dir) tf stk = .ok (s6, c) ∧
      allocPage s6 = .ok (pf, s') := by
  simp only [allocProcessSpace, bind_eq_ok] at h
  obtain ⟨⟨tf, s1⟩, h1, _, hm1, ⟨dir, s2⟩, h2, _, hm2, ⟨ks, s3⟩, h3, ⟨stk, s4⟩, h4,
    ⟨info, s5⟩, h5, _, hm3, ⟨s6, c6⟩, h6, ⟨pf, s7⟩, h7, h⟩ := h
  obtain ⟨htf, rfl⟩ := memset_eq hm1
  obtain ⟨hdir, rfl⟩ := memset_eq hm2
  obtain ⟨hinfo, rfl⟩ := memset_eq hm3
  split at h
  · cases h
  · cases h
    exact ⟨tf, s1, dir, s2, ks, s3, stk, s4, info, s5, s6, pf, h1, htf, h2, hdir, h3, h4, h5,
      hinfo, h6, h7⟩

theorem allocProcessSpace_heap (h : allocProcessSpace s trapSec = .ok (s', c)) :
    c.heapTop = c.heapBottom := by
  obtain ⟨tf, s1, dir, s2, ks, s3, stk, s4, info, s5, s6, pf, -, -, -, -, -, -, -, -, h, -⟩ :=
    allocProcessSpace_inv h
  obtain ⟨s1, pt1, s2, pt2, pt3, -, -, -, rfl⟩ := initSpace_inv h
  rfl

theorem elfAllocMb_inv {va size dest : Nat} (h : elfAllocMb s pt va size = .ok (dest, s', pt')) :
    size < PGSIZE ∧ dest ≠ 0 ∧ ∃ s1, allocPage s = .ok (dest, s1) ∧
      userVmMap { s1 with mem := fillBytes s1.mem dest 0 PGSIZE } pt va PGSIZE dest
        (protToType true true true true) = .ok (s', pt') := by
  unfold elfAllocMb at h
  split at h
  · cases h
  · rename_i hsize
    simp only [bind_eq_ok] at h
    obtain ⟨⟨pa, s1⟩, ha, h⟩ := h
    split at h
    · cases h
    · rename_i hpa
      simp only [bind_eq_ok] at h
      obtain ⟨s2, hset, ⟨s3, pt3⟩, hmap, h⟩ := h
      cases h
      obtain ⟨-, rfl⟩ := memset_eq hset
      exact ⟨by omega, hpa, s1, ha, hmap⟩

theorem loadSegment_inv {ph : ElfProgHeader} (h : loadSegment s c ph = .ok (s', c')) :
    (ph.isLoad = false ∧ s' = s ∧ c' = c) ∨
    (ph.isLoad = true ∧ ∃ dest s1 pt1 segType,
      elfAllocMb s c.pagetable ph.vaddr ph.memsz = .ok (dest, s1, pt1) ∧
      s' = { s1 with mem := copyBytes s1.mem dest ph.content 0 ph.memsz } ∧
      segTypeOf ph.flags = some segType ∧
      recordRegion { c with pagetable := pt1 } ph.vaddr segType = .ok c') := by
  unfold loadSegment at h
  split at h
  · rename_i hload
    cases h
    exact .inl ⟨by simpa using hload, rfl, rfl⟩
  · rename_i hload
    split at h
    · cases h
    · simp only [bind_eq_ok] at h
      obtain ⟨⟨dest, s1, pt1⟩, hal, h⟩ := h
      split at h
      · cases h
      · split at h
        · cases h
        · rename_i segType hseg
          simp only [bind_eq_ok] at h
          obtain ⟨c1, hrec, h⟩ := h
          cases h
          exact .inr ⟨by simpa using hload, dest, s1, pt1, segType, hal, rfl, hseg, hrec⟩

/-! ## Fork and exec -/

theorem addRegion_eq {va npages : Nat} {segType : SegType}
    (h : addRegion c va npages segType = .ok c') :
    c' = { c with
      mappedInfo := update c.mappedInfo c.totalMappedRegion ⟨va, npages, segType⟩
      totalMappedRegion := c.totalMappedRegion + 1 } := by
  unfold addRegion at h
  split at h
  · cases h
  · cases h
    rfl

theorem forkRegion_inv {r : MappedRegion} (h : forkRegion parent garbage s c r = .ok (s', c')) :
    (s' = s ∧ c' = c ∧ r.segType ≠ .heap) ∨
    (r.segType = .stack ∧ c' = c ∧
      memcpy s (lookupPa c.pagetable (c.mappedInfo 0).va) (lookupPa parent.pagetable r.va)
        PGSIZE = .ok s') ∨
    (r.segType = .heap ∧ forkHeap s parent c garbage = .ok (s', c')) ∨
    (r.segType = .code ∧ ∃ pt, userVmMap s c.pagetable r.va (r.npages * PGSIZE)
        (lookupPa parent.pagetable r.va) (protToType true false true true) = .ok (s', pt) ∧
      addRegion { c with pagetable := pt } r.va r.npages .code = .ok c') ∨
    (r.segType = .data ∧ ∃ pt, forkDataFrom parent.pagetable r.npages r.va s c.pagetable
        = .ok (s', pt) ∧
      addRegion { c with pagetable := pt } r.va r.npages .data = .ok c') := by
  unfold forkRegion at h
  split at h
  · rename_i hseg
    cases h
    exact .inl ⟨rfl, rfl, by rw [hseg]; simp⟩
  · rename_i hseg
    cases h
    exact .inl ⟨rfl, rfl, by rw [hseg]; simp⟩
  · rename_i hseg
    simp only [bind_eq_ok] at h
    obtain ⟨s1, hcp, h⟩ := h
    cases h
    exact .inr (.inl ⟨hseg, rfl, hcp⟩)
  · rename_i hseg
    exact .inr (.inr (.inl ⟨hseg, h⟩))
  · rename_i hseg
    simp only [bind_eq_ok] at h
    obtain ⟨⟨s1, pt⟩, hmap, c1, hreg, h⟩ := h
    cases h
    exact .inr (.inr (.inr (.inl ⟨hseg, pt, hmap, hreg⟩)))
  · rename_i hseg
    simp only [bind_eq_ok] at h
    obtain ⟨⟨s1, pt⟩, hmap, c1, hreg, h⟩ := h
    cases h
    exact .inr (.inr (.inr (.inr ⟨hseg, pt, hmap, hreg⟩)))

theorem forkHeap_inv (h : forkHeap s parent c garbage = .ok (s', c')) :
    ∃ pt, forkHeapFrom parent garbage (heapBlocks parent) s c.pagetable = .ok (s', pt) ∧
      c' = { c with
        pagetable := pt
        mappedInfo := update c.mappedInfo 3
          { c.mappedInfo 3 with npages := (parent.mappedInfo 3).npages }
        heapTop := parent.heapTop
        heapBottom := parent.heapBottom
        freePages := parent.freePages } := by
  unfold forkHeap at h
  split at h
  · cases h
  · simp only [bind_eq_ok] at h
    obtain ⟨⟨s1, pt⟩, h1, h⟩ := h
    cases h
    exact ⟨pt, h1, rfl⟩

theorem execClean_inv (h : execClean s trapSec c = .ok (s', c')) :
    ∃ s1 pt1 tf s2 stk s3, procCleanPagetable s c = .ok (s1, pt1) ∧
      allocPage s1 = .ok (tf, s2) ∧ tf ≠ 0 ∧
      allocPage { s2 with
        mem := fillBytes (fillBytes s2.mem tf 0 trapframeSize) c.pagetable.dir 0 PGSIZE }
        = .ok (stk, s3) ∧
      initSpace s3 trapSec (.empty c.pagetable.dir) tf stk = .ok (s', c') := by
  simp only [execClean, bind_eq_ok] at h
  obtain ⟨⟨s1, pt1⟩, h1, ⟨tf, s2⟩, h2, _, hm1, _, hm2, ⟨stk, s3⟩, h3, h⟩ := h
  obtain ⟨htf, rfl⟩ := memset_eq hm1
  obtain ⟨-, rfl⟩ := memset_eq hm2
  exact ⟨s1, pt1, tf, s2, stk, s3, h1, h2, htf, h3, h⟩

/-! ## The heap and stores -/

theorem sysUserAllocatePage_inv (h : sysUserAllocatePage s c = .ok (s', c')) :
    ∃ pa s1, allocPage s = .ok (pa, s1) ∧
      ((∃ va rest pt', c.freePages = va :: rest ∧ va < c.heapTop ∧
          userVmMap s1 c.pagetable va PGSIZE pa (protToType true true false true) = .ok (s', pt') ∧
          c' = { c with pagetable := pt', freePages := rest }) ∨
        (c.freePages = [] ∧ ∃ pt',
          userVmMap s1 c.pagetable c.heapTop PGSIZE pa (protToType true true false true)
            = .ok (s', pt') ∧
          c' = { c with
            pagetable := pt'
            heapTop := u64 (c.heapTop + PGSIZE)
            mappedInfo := update c.mappedInfo 3
              { c.mappedInfo 3 with npages := (c.mappedInfo 3).npages + 1 } })) := by
  simp only [sysUserAllocatePage, bind_eq_ok] at h
  obtain ⟨⟨pa, s1⟩, ha, h⟩ := h
  refine ⟨pa, s1, ha, ?_⟩
  split at h
  · rename_i va rest hfp
    split at h
    · cases h
    · simp only [bind_eq_ok] at h
      obtain ⟨⟨s2, pt'⟩, hmap, h⟩ := h
      cases h
      exact .inl ⟨va, rest, pt', hfp, by omega, hmap, rfl⟩
  · rename_i hfp
    simp only [bind_eq_ok] at h
    obtain ⟨⟨s2, pt'⟩, hmap, h⟩ := h
    cases h
    exact .inr ⟨hfp, pt', hmap, rfl⟩

theorem sysUserFreePage_inv (h : sysUserFreePage s c va = .ok (s', c')) :
    ∃ pt', userVmUnmap s c.pagetable va = .ok (s', pt') ∧
      c' = { c with pagetable := pt', freePages := va :: c.freePages } := by
  simp only [sysUserFreePage, bind_eq_ok] at h
  obtain ⟨⟨s1, pt'⟩, hu, h⟩ := h
  split at h
  · cases h
  · cases h
    exact ⟨pt', hu, rfl⟩

theorem handleUserPageFault_inv {sp : Nat} (h : handleUserPageFault s c sp va = .ok (s', c')) :
    (stackFault sp va ∧ ∃ pa s1 pt1, allocPage s = .ok (pa, s1) ∧ pa ≠ 0 ∧
      pageWalk s1 c.pagetable va = .ok (true, s', pt1) ∧
      c' = { c with
        pagetable := pt1.set (va / PGSIZE) (.leaf pa (protToType true true false true)) }) ∨
    (¬ stackFault sp va ∧ va < MAXVA ∧ c.pagetable.walks (va / PGSIZE) = true ∧
      (c.pagetable.entry (va / PGSIZE)).rsw = 1 ∧ ∃ s1 pa,
        freePage s (c.pagetable.entry (va / PGSIZE)).pa = .ok s1 ∧
        allocPage s1 = .ok (pa, s') ∧ pa ≠ 0 ∧
        c' = { c with
          pagetable := c.pagetable.set (va / PGSIZE)
            (.leaf pa (protToType true true false true)) }) := by
  unfold handleUserPageFault at h
  split at h
  · rename_i hsf
    simp only [bind_eq_ok] at h
    obtain ⟨⟨pa, s1⟩, ha, h⟩ := h
    split at h
    · cases h
    rename_i hpa
    simp only [bind_eq_ok] at h
    obtain ⟨⟨found, s2, pt2⟩, hw, h⟩ := h
    cases found with
    | false => simp at h
    | true =>
      cases h
      exact .inl ⟨hsf, pa, s1, pt2, ha, hpa, hw, rfl⟩
  · rename_i hsf
    split at h
    · cases h
    split at h
    · cases h
    rename_i hw
    have hwalks : c.pagetable.walks (va / PGSIZE) = true := by simpa using hw
    rw [← entry_of_walks hwalks] at h
    split at h
    · rename_i hrsw
      simp only [bind_eq_ok] at h
      obtain ⟨s1, hf, ⟨pa, s2⟩, ha, h⟩ := h
      split at h
      · cases h
      · rename_i hpa
        cases h
        exact .inr ⟨hsf, by omega, hwalks, hrsw, s1, pa, hf, ha, hpa, rfl⟩
    · cases h

theorem userStore_inv {sp : Nat} {b : UInt8} (h : userStore s c sp va b = .ok (s', c')) :
    ((c.translate va).storable = true ∧ c' = c ∧
      s' = { s with mem := fillBytes s.mem ((c.translate va).pa + va % PGSIZE) b 1 }) ∨
    ((c.translate va).storable = false ∧ stackFault sp va ∧ ∃ pa s1 pt1,
      allocPage s = .ok (pa, s1) ∧ pa ≠ 0 ∧
      pageWalk s1 c.pagetable va = .ok (true, s', pt1) ∧
      c' = { c with
        pagetable := pt1.set (va / PGSIZE) (.leaf pa (protToType true true false true)) }) ∨
    ((c.translate va).storable = false ∧ ¬ stackFault sp va ∧ va < MAXVA ∧
      c.pagetable.walks (va / PGSIZE) = true ∧
      (c.pagetable.entry (va / PGSIZE)).rsw = 1 ∧ ∃ s1 pa,
        freePage s (c.pagetable.entry (va / PGSIZE)).pa = .ok s1 ∧
        allocPage s1 = .ok (pa, s') ∧ pa ≠ 0 ∧
        c' = { c with
          pagetable := c.pagetable.set (va / PGSIZE)
            (.leaf pa (protToType true true false true)) }) := by
  unfold userStore at h
  simp only at h
  split at h
  · rename_i hst
    cases h
    exact .inl ⟨hst, rfl, rfl⟩
  rename_i hst
  have hst' : (c.translate va).storable = false := by simpa using hst
  rcases handleUserPageFault_inv h with hstack | hshared
  · exact .inr (.inl ⟨hst', hstack⟩)
  · exact .inr (.inr ⟨hst', hshared⟩)

/-! ## Processes -/

omit [RefTable T] in
theorem VmSys.space_eq {s : VmSys T} {p : Nat} (h : s.space p = .ok c) : s.procs p = some c := by
  unfold VmSys.space at h
  split at h
  · cases h
  · rename_i d hd
    cases h
    exact hd

omit [RefTable T] in
theorem VmSys.onSpace_inv {s s' : VmSys T} {p : Nat} {f : Space → Outcome (Pmm T × Space)}
    (h : (do
      let c ← s.space p
      let (pmm, c) ← f c
      return s.put pmm p c) = .ok s') :
    ∃ c pmm c', s.procs p = some c ∧ f c = .ok (pmm, c') ∧ s' = s.put pmm p c' := by
  simp only [bind_eq_ok] at h
  obtain ⟨c, hp, ⟨pmm, c'⟩, hf, h⟩ := h
  cases h
  exact ⟨c, pmm, c', VmSys.space_eq hp, hf, rfl⟩

theorem VmSys.fork_inv {s s' : VmSys T} {p : Nat} {garbage : Nat → Bool}
    (h : s.step (.fork p garbage) = .ok s') :
    ∃ parent i pmm c, s.procs p = some parent ∧ s.freeSlot = .ok i ∧
      doForkSpace s.pmm s.trapSec parent garbage = .ok (pmm, c) ∧ s' = s.put pmm i c := by
  simp only [VmSys.step, bind_eq_ok] at h
  obtain ⟨parent, hp, i, hi, ⟨pmm, c⟩, hf, h⟩ := h
  cases h
  exact ⟨parent, i, pmm, c, VmSys.space_eq hp, hi, hf, rfl⟩

end CabbagePKE
