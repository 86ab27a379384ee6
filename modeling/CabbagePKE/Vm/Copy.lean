import CabbagePKE.Vm.Plain

/-!
# What fork copies

`do_fork` builds the child from the parent's table of regions, one page
for each region other than the heap. A page the parent got otherwise, on a
store below its stack, is not in that table.
-/

namespace CabbagePKE

open Lib Function List

variable {T : Type} [RefTable T]

/-! ## The child under construction -/

/-- The child's page `v` is readable and holds what the parent's held in
the memory `m`. -/
structure PageCopied (m : Mem) (parent : Space) (s : Pmm T) (pt : PageTable) (free : List Nat)
    (v : Nat) : Prop where
  loadable : (pt.entry v).loadable = true
  aligned : (pt.entry v).pa % PGSIZE = 0
  off : (pt.entry v).pa ∉ free
  same : ∀ x, x < PGSIZE →
    s.mem ((pt.entry v).pa + x) = m ((parent.pagetable.entry v).pa + x)

/-- `do_fork` under way, begun in the memory `m`. The pages `done` have been
copied, unless the allocator has run out of pages; besides them, user code
of the child has at most the stack page and pages of the heap. -/
structure Copying (m : Mem) (parent : Space) (s : Pmm T) (pt : PageTable) (free : List Nat)
    (done : Nat → Prop) : Prop where
  listed : s.Listed free
  holds : parent.pagetable.Holds free
  kept : ∀ v, (parent.pagetable.entry v).v = true → ∀ x, x < PGSIZE →
    s.mem ((parent.pagetable.entry v).pa + x) = m ((parent.pagetable.entry v).pa + x)
  copied : free ≠ [] → ∀ v, done v → PageCopied m parent s pt free v
  only : ∀ v, (pt.entry v).userMapped = true → done v ∨ v = stackVpn ∨ parent.InHeap v

section

variable {m : Mem} {parent c c' : Space} {s s' : Pmm T} {pt pt' : PageTable}
  {free free' : List Nat} {done : Nat → Prop} {garbage : Nat → Bool} {v : Nat}

section

omit [RefTable T]

theorem ne_nil_of_took (ht : Took s s' free free') (h : free' ≠ []) : free ≠ [] := by
  rintro rfl
  obtain ⟨taken, htaken, -⟩ := ht.taken
  exact h (append_eq_nil_iff.mp htaken.symm).2

theorem PageCopied.took (h : PageCopied m parent s pt free v) (hl : s.Listed free)
    (ht : Took s s' free free') (hent : pt'.entry v = pt.entry v) :
    PageCopied m parent s' pt' free' v := by
  refine ⟨by rw [hent]; exact h.loadable, by rw [hent]; exact h.aligned, ?_, ?_⟩
  · rw [hent]
    exact fun hmem => h.off (ht.mem_of_mem hmem)
  · intro x hx
    rw [hent, ht.page_eq hl h.aligned h.off hx]
    exact h.same x hx

theorem Copying.step (h : Copying m parent s pt free done) (ht : Took s s' free free')
    (hent : ∀ v, ¬ parent.InHeap v → pt'.entry v = pt.entry v)
    (hdone : ∀ v, done v → ¬ parent.InHeap v) : Copying m parent s' pt' free' done := by
  refine ⟨ht.listed, h.holds.took ht, ?_, ?_, ?_⟩
  · intro v hv x hx
    rw [ht.page_eq h.listed (h.holds v hv).1 (h.holds v hv).2 hx]
    exact h.kept v hv x hx
  · intro hne v hv
    exact (h.copied (ne_nil_of_took ht hne) v hv).took h.listed ht (hent v (hdone v hv))
  · intro v hv
    by_cases hin : parent.InHeap v
    · exact .inr (.inr hin)
    · rw [hent v hin] at hv
      exact h.only v hv

theorem Copying.add (h : Copying m parent s pt free done) (ht : Took s s' free free')
    (hent : ∀ w, w ≠ v → pt'.entry w = pt.entry w)
    (hnew : free' ≠ [] → PageCopied m parent s' pt' free' v) :
    Copying m parent s' pt' free' (fun w => done w ∨ w = v) := by
  refine ⟨ht.listed, h.holds.took ht, ?_, ?_, ?_⟩
  · intro w hw x hx
    rw [ht.page_eq h.listed (h.holds w hw).1 (h.holds w hw).2 hx]
    exact h.kept w hw x hx
  · intro hne w hw
    by_cases hwv : w = v
    · rw [hwv]
      exact hnew hne
    · have hd := hw.resolve_right hwv
      exact (h.copied (ne_nil_of_took ht hne) w hd).took h.listed ht (hent w hwv)
  · intro w hw
    by_cases hwv : w = v
    · exact .inl (.inr hwv)
    · rw [hent w hwv] at hw
      exact (h.only w hw).imp_left .inl

end

/-! ### The cases of the loop -/

omit [RefTable T] in
theorem Copying.stack (h : Copying m parent s pt free (fun _ => False))
    (hv : (pt.entry stackVpn).Usable) (ha : (pt.entry stackVpn).pa % PGSIZE = 0)
    (hn : (pt.entry stackVpn).pa ∉ free)
    (hap : ∀ v, (parent.pagetable.entry v).v = true →
      (parent.pagetable.entry v).pa ≠ (pt.entry stackVpn).pa)
    (hcp : memcpy s (lookupPa pt (USER_STACK_TOP - PGSIZE))
      (lookupPa parent.pagetable (USER_STACK_TOP - PGSIZE)) PGSIZE = .ok s') :
    Copying m parent s' pt free (fun v => v = stackVpn) := by
  obtain ⟨hdst, hsrc, rfl⟩ := memcpy_eq hcp
  obtain ⟨-, -, hd⟩ := lookupPa_mapped hdst
  obtain ⟨-, hsv, hs⟩ := lookupPa_mapped hsrc
  have hd' : lookupPa pt (USER_STACK_TOP - PGSIZE) = (pt.entry stackVpn).pa := hd
  have hs' : lookupPa parent.pagetable (USER_STACK_TOP - PGSIZE)
      = (parent.pagetable.entry stackVpn).pa := hs
  rw [hd', hs']
  refine ⟨h.listed.write (fun p hp i hi => ?_), h.holds, ?_, ?_, ?_⟩
  · have hne : p ≠ (pt.entry stackVpn).pa := fun heq => hn (heq ▸ hp)
    have hpa := page_apart (h.listed.managed p hp).1 ha hne
    refine copyBytes_outside ?_
    unfold PGSIZE at *
    omega
  · intro v hv x hx
    have hpa := page_apart (h.holds v hv).1 ha (hap v hv)
    have hout : copyBytes s.mem (pt.entry stackVpn).pa s.mem (parent.pagetable.entry stackVpn).pa
        PGSIZE ((parent.pagetable.entry v).pa + x) = s.mem ((parent.pagetable.entry v).pa + x) :=
      copyBytes_outside (by omega)
    exact hout.trans (h.kept v hv x hx)
  · rintro - v rfl
    refine ⟨?_, ha, hn, fun x hx => ?_⟩
    · obtain ⟨hst, hr⟩ := hv
      simp only [Pte.storable, Bool.and_eq_true] at hst
      simp [Pte.loadable, hst, hr]
    · rw [← h.kept stackVpn hsv x hx]
      simp [copyBytes, hx]
  · intro v hv
    exact .inr ((h.only v hv).resolve_left (fun hf => hf))

theorem cowVmMap_took {va pa : Nat} (hl : s.Listed free)
    (h : cowVmMap s pt va pa = .ok (s', pt')) : ∃ free', Took s s' free free' := by
  obtain ⟨s1, pt1, hw, hr, -⟩ := cowVmMap_inv h
  obtain ⟨free1, ht1, -⟩ := pageWalk_took hl hw
  simp only [addRef, bind_eq_ok] at hr
  obtain ⟨refs, -, hr⟩ := hr
  cases hr
  exact ⟨free1, ⟨ht1.listed.start_pos, ht1.listed.end_lt, ht1.listed.chain, ht1.listed.head_lt,
    ht1.listed.managed⟩, ht1.taken, ht1.start_eq, ht1.end_eq⟩

theorem heapBlock_inHeap (hp : parent.Plain) {i : Nat} (hi : i ∈ heapBlocks parent) :
    parent.InHeap ((parent.heapBottom + i * PGSIZE) / PGSIZE) := by
  rw [heapBlocks, mem_range] at hi
  have htop := hp.top
  have hbot := hp.bottom
  unfold Space.InHeap
  rw [hbot] at hi ⊢
  unfold USER_FREE_ADDRESS_START PGSIZE at *
  omega

theorem Copying.heapFrom (hp : parent.Plain) (hdone : ∀ v, done v → ¬ parent.InHeap v) :
    ∀ (is : List Nat) (s : Pmm T) (pt : PageTable) (free : List Nat),
      (∀ i ∈ is, i ∈ heapBlocks parent) → Copying m parent s pt free done →
      forkHeapFrom parent garbage is s pt = .ok (s', pt') →
      ∃ free', Took s s' free free' ∧ Copying m parent s' pt' free' done := by
  intro is
  induction is with
  | nil =>
    intro s pt free _ h hf
    cases hf
    exact ⟨free, .refl h.listed, h⟩
  | cons i is ih =>
    intro s pt free his h hf
    simp only [forkHeapFrom] at hf
    split at hf
    · cases hf
    · split at hf
      · exact ih s pt free (fun j hj => his j (by simp [hj])) h hf
      · simp only [bind_eq_ok] at hf
        obtain ⟨⟨s1, pt1⟩, hcow, hf⟩ := hf
        obtain ⟨free1, ht1⟩ := cowVmMap_took h.listed hcow
        obtain ⟨-, -, hent⟩ := cowVmMap_entry hcow
        have h1 : Copying m parent s1 pt1 free1 done := h.step ht1 (fun v hv => by
          have hne : v ≠ (parent.heapBottom + i * PGSIZE) / PGSIZE := by
            rintro rfl
            exact hv (heapBlock_inHeap hp (his i (by simp)))
          rw [hent, if_neg hne]) hdone
        obtain ⟨free2, ht2, h2⟩ := ih s1 pt1 free1 (fun j hj => his j (by simp [hj])) h1 hf
        exact ⟨free2, ht1.trans ht2, h2⟩

theorem lookupPa_usable {va : Nat} (hlt : va < MAXVA) (h : (pt.entry (va / PGSIZE)).Usable) :
    lookupPa pt va = (pt.entry (va / PGSIZE)).pa := by
  obtain ⟨hst, hr⟩ := h
  simp only [Pte.storable, Bool.and_eq_true] at hst
  rw [lookupPa, if_neg (by omega)]
  simp [hst, hr]

theorem Copying.code {r : MappedRegion} (hr : r.IsSegment)
    (huse : (parent.pagetable.entry (r.va / PGSIZE)).Usable)
    (h : Copying m parent s pt free done)
    (hmap : userVmMap s pt r.va (r.npages * PGSIZE) (lookupPa parent.pagetable r.va)
      (protToType true false true true) = .ok (s', pt')) :
    ∃ free', Took s s' free free' ∧
      Copying m parent s' pt' free' (fun w => done w ∨ w = r.va / PGSIZE) := by
  rw [hr.npages, Nat.one_mul] at hmap
  obtain ⟨free', ht⟩ := userVmMap_took h.listed hmap
  obtain ⟨-, hlt, hent⟩ := userVmMap_entry hr.aligned hmap
  have hpv : (parent.pagetable.entry (r.va / PGSIZE)).v = true := by
    have hst := huse.1
    simp only [Pte.storable, Bool.and_eq_true] at hst
    exact hst.1.1
  obtain ⟨hal, hoff⟩ := h.holds _ hpv
  refine ⟨free', ht, h.add ht (fun w hw => by rw [hent, if_neg hw]) (fun _ => ?_)⟩
  have he : pt'.entry (r.va / PGSIZE) = Pte.leaf (parent.pagetable.entry (r.va / PGSIZE)).pa
      (protToType true false true true) := by rw [hent, if_pos rfl, lookupPa_usable hlt huse]
  have hpa := leaf_pa_of_aligned (protToType true false true true) hal
  refine ⟨by rw [he]; rfl, by rw [he, hpa]; exact hal, ?_, fun x hx => ?_⟩
  · rw [he, hpa]
    exact fun hmem => hoff (ht.mem_of_mem hmem)
  · rw [he, hpa, ht.page_eq h.listed hal hoff hx]
    exact h.kept _ hpv x hx

theorem Copying.data {r : MappedRegion} (hr : r.IsSegment) (h : Copying m parent s pt free done)
    (hd : forkDataFrom parent.pagetable r.npages r.va s pt = .ok (s', pt')) :
    ∃ free', Took s s' free free' ∧
      Copying m parent s' pt' free' (fun w => done w ∨ w = r.va / PGSIZE) := by
  rw [hr.npages] at hd
  simp only [forkDataFrom, bind_eq_ok] at hd
  obtain ⟨⟨page, s1⟩, ha, s2, hcp, ⟨ret, s3, pt3⟩, hmap, hd⟩ := hd
  cases hd
  obtain ⟨hpage, hsrc, rfl⟩ := memcpy_eq hcp
  obtain ⟨-, hpv, hsrc⟩ := lookupPa_mapped hsrc
  obtain ⟨hm1, hpal, hpf, free1, hnew, ht1⟩ := allocPage_fresh h.listed ha
  have ht1' := ht1.write hpf h.listed hnew hpage
    (m := copyBytes s1.mem page s1.mem (lookupPa parent.pagetable r.va) PGSIZE)
    (fun x hx => copyBytes_outside hx)
  obtain ⟨free2, ht2, hdry⟩ := mapPagesFrom_took _ _ _ _ _ free1 ht1'.listed hmap
  have ht := ht1'.trans ht2
  obtain ⟨-, -, ⟨-, -, hent⟩ | ⟨hret, hent⟩⟩ := mapPages_page hr.aligned hmap
  · refine ⟨free2, ht, h.add ht (fun w hw => by rw [hent, if_neg hw]) (fun _ => ?_)⟩
    have he : pt3.entry (r.va / PGSIZE) = Pte.leaf page (protToType true true false true) := by
      rw [hent, if_pos rfl]
    have hpa := leaf_pa_of_aligned (protToType true true false true) hpal
    refine ⟨by rw [he]; rfl, by rw [he, hpa]; exact hpal, ?_, fun x hx => ?_⟩
    · rw [he, hpa]
      exact fun hmem => hnew (ht2.mem_of_mem hmem)
    · rw [he, hpa, ht2.page_eq ht1'.listed hpal hnew hx, ← h.kept _ hpv x hx, hsrc]
      simp [copyBytes, hx, hm1]
  · exact ⟨free2, ht, h.add ht (fun w _ => hent w) (fun hne => absurd (hdry hret) hne)⟩

/-! ### The loop -/

theorem Copying.segment {r : MappedRegion} (hr : r.IsSegment)
    (huse : (parent.pagetable.entry (r.va / PGSIZE)).Usable)
    (h : Copying m parent s c.pagetable free done)
    (hf : forkRegion parent garbage s c r = .ok (s', c')) :
    ∃ free', Took s s' free free' ∧
      Copying m parent s' c'.pagetable free' (fun w => done w ∨ w = r.va / PGSIZE) := by
  rcases hr.kind with hk | hk
  · simp only [forkRegion, hk, bind_eq_ok] at hf
    obtain ⟨⟨s1, pt1⟩, hmap, c1, hreg, hf⟩ := hf
    cases hf
    rw [addRegion_eq hreg]
    exact h.code hr huse hmap
  · simp only [forkRegion, hk, bind_eq_ok] at hf
    obtain ⟨⟨s1, pt1⟩, hd, c1, hreg, hf⟩ := hf
    cases hf
    rw [addRegion_eq hreg]
    exact h.data hr hd

theorem Copying.segments :
    ∀ (rs : List MappedRegion) (s : Pmm T) (c : Space) (free : List Nat) (done : Nat → Prop),
      (∀ r ∈ rs, r.IsSegment ∧ (parent.pagetable.entry (r.va / PGSIZE)).Usable) →
      Copying m parent s c.pagetable free done →
      forkRegions parent garbage rs s c = .ok (s', c') →
      ∃ free', Copying m parent s' c'.pagetable free'
        (fun w => done w ∨ ∃ r ∈ rs, r.va / PGSIZE = w) := by
  intro rs
  induction rs with
  | nil =>
    intro s c free done _ h hf
    cases hf
    simpa using ⟨free, h⟩
  | cons r rs ih =>
    intro s c free done hrs h hf
    simp only [forkRegions, bind_eq_ok] at hf
    obtain ⟨⟨s1, c1⟩, h1, hf⟩ := hf
    obtain ⟨free1, -, hc1⟩ := h.segment (hrs r (by simp)).1 (hrs r (by simp)).2 h1
    obtain ⟨free2, hc2⟩ := ih s1 c1 free1 _ (fun r' hr' => hrs r' (by simp [hr'])) hc1 hf
    refine ⟨free2, ?_⟩
    have hdone : (fun w => (done w ∨ w = r.va / PGSIZE) ∨ ∃ r' ∈ rs, r'.va / PGSIZE = w)
        = fun w => done w ∨ ∃ r' ∈ r :: rs, r'.va / PGSIZE = w := by
      funext w
      simp only [mem_cons, exists_eq_or_imp, or_assoc, eq_comm (a := w)]
    rwa [hdone] at hc2

theorem doForkSpace_copies {trapSec : Nat} (hl : s.Listed free)
    (hk : KernelAt s.freeMemStartAddr trapSec) (hp : parent.Plain)
    (hh : parent.pagetable.Holds free)
    (hf : doForkSpace s trapSec parent garbage = .ok (s', c')) :
    ∃ free', Copying s.mem parent s' c'.pagetable free' parent.Registered := by
  simp only [doForkSpace, bind_eq_ok] at hf
  obtain ⟨⟨s1, c1⟩, halloc, hf⟩ := hf
  obtain ⟨free1, ht1, hc1, hh1, honly, hstk⟩ := allocProcessSpace_plain hl hk halloc
  have hstart : Copying s.mem parent s1 c1.pagetable free1 (fun _ => False) :=
    ⟨ht1.listed, hh.took ht1, fun v hv x hx => ht1.page_eq hl (hh v hv).1 (hh v hv).2 hx,
      fun _ v hv => hv.elim, fun v hv => .inr (.inl (honly v hv))⟩
  rw [regions_eq hp.four_le] at hf
  simp only [forkRegions, bind_eq_ok] at hf
  obtain ⟨⟨s2, c2⟩, h0, ⟨s3, c3⟩, h1, ⟨s4, c4⟩, h2, ⟨s5, c5⟩, h3, hf⟩ := hf
  -- the stack page
  simp only [forkRegion, hp.stack, hc1.stack, bind_eq_ok] at h0
  obtain ⟨s2', hcp, h0⟩ := h0
  cases h0
  have hreg : c1.Registered stackVpn := hc1.registered_iff.mpr (.inl rfl)
  have huse := hc1.usable _ hreg
  have hv : (c1.pagetable.entry stackVpn).v = true := by
    have hst := huse.1
    simp only [Pte.storable, Bool.and_eq_true] at hst
    exact hst.1.1
  have hdst : (c1.pagetable.entry stackVpn).pa ≠ 0 := by
    have hd := (memcpy_eq hcp).1
    rwa [(lookupPa_mapped hd).2.2] at hd
  have hstack := hstart.stack huse (hh1 _ hv).1 (hh1 _ hv).2 (fun v hv' heq =>
    (hh v hv').2 (heq ▸ hstk.resolve_left hdst)) hcp
  -- nothing for the trapframe and the trap vector
  simp only [forkRegion, hp.context.1] at h1
  cases h1
  simp only [forkRegion, hp.system.1] at h2
  cases h2
  -- the heap
  simp only [forkRegion, hp.heap.1] at h3
  obtain ⟨pt5, hheap, rfl⟩ := forkHeap_inv h3
  have hstackNot : ∀ v, v = stackVpn → ¬ parent.InHeap v := by
    rintro v rfl
    exact hp.apart _ (hp.registered_iff.mpr (.inl rfl))
  obtain ⟨free5, ht5, hheap⟩ := hstack.heapFrom hp hstackNot _ _ _ _ (fun i hi => hi) hheap
  -- the segments
  have hsegs : ∀ r ∈ (range (parent.totalMappedRegion - 4)).map
      (fun k => parent.mappedInfo (k + 4)),
      r.IsSegment ∧ (parent.pagetable.entry (r.va / PGSIZE)).Usable := by
    intro r hr
    obtain ⟨k, hk, rfl⟩ := mem_map.mp hr
    rw [mem_range] at hk
    exact ⟨hp.segment _ (by omega) (by omega), hp.usable _
      (hp.registered_iff.mpr (.inr ⟨k + 4, by omega, by omega, rfl⟩))⟩
  obtain ⟨free6, hall⟩ := Copying.segments _ _ _ free5 _ hsegs hheap hf
  refine ⟨free6, ?_⟩
  have hdone : (fun w => w = stackVpn ∨ ∃ r ∈ (range (parent.totalMappedRegion - 4)).map
      (fun k => parent.mappedInfo (k + 4)), r.va / PGSIZE = w) = parent.Registered := by
    funext w
    rw [eq_iff_iff, hp.registered_iff]
    refine or_congr_right ⟨?_, ?_⟩
    · rintro ⟨r, hr, hw⟩
      obtain ⟨k, hk, rfl⟩ := mem_map.mp hr
      rw [mem_range] at hk
      exact ⟨k + 4, by omega, by omega, hw⟩
    · rintro ⟨j, h4, hj, hw⟩
      refine ⟨_, mem_map_of_mem (mem_range.mpr (show j - 4 < _ by omega)), ?_⟩
      rwa [Nat.sub_add_cancel h4]
  rwa [hdone] at hall

end

/-! ## Runs without fork -/

structure VmSys.Started (s : VmSys T) : Prop where
  kernel : KernelAt s.pmm.freeMemStartAddr s.trapSec
  listed : ∃ free, s.pmm.Listed free
  empty : ∀ p, s.procs p = none

def VmSys.Unforked (_ : VmSys T) : VmOp → Prop
  | .load phs => SegmentsPlaced phs
  | .allocatePage _ => True
  | .store _ _ _ _ => True
  | _ => False

/-- Every process is as it was loaded, with pages added, and none of their
pages is free. -/
structure VmSys.Settled (s : VmSys T) : Prop where
  kernel : KernelAt s.pmm.freeMemStartAddr s.trapSec
  procs : ∃ free, s.pmm.Listed free ∧
    ∀ p c, s.procs p = some c → c.Plain ∧ c.pagetable.Holds free

section

variable {s₀ s s' : VmSys T} {p : Nat} {c : Space} {pmm : Pmm T} {free free' : List Nat}

omit [RefTable T] in
theorem VmSys.Settled.put (hk : KernelAt s.pmm.freeMemStartAddr s.trapSec)
    (h : ∀ p c, s.procs p = some c → c.Plain ∧ c.pagetable.Holds free)
    (hl : pmm.Listed free') (hsub : ∀ q ∈ free', q ∈ free)
    (hst : pmm.freeMemStartAddr = s.pmm.freeMemStartAddr)
    (hc : c.Plain ∧ c.pagetable.Holds free') : (s.put pmm p c).Settled := by
  refine ⟨by rw [show (s.put pmm p c).pmm.freeMemStartAddr = _ from hst]; exact hk, free', hl, ?_⟩
  intro q c' hq
  simp only [VmSys.put] at hq
  by_cases hqp : q = p
  · subst hqp
    rw [update_self] at hq
    cases hq
    exact hc
  · rw [update_of_ne hqp] at hq
    obtain ⟨hplain, hholds⟩ := h q c' hq
    exact ⟨hplain, fun v hv => ⟨(hholds v hv).1, fun hmem => (hholds v hv).2 (hsub _ hmem)⟩⟩

theorem VmSys.Settled.step {op : VmOp} (h : s.Settled) (hop : s.Unforked op)
    (hs : s.step op = .ok s') : s'.Settled := by
  obtain ⟨hk, free, hl, hprocs⟩ := h
  cases op with
  | load phs =>
    simp only [VmSys.step, bind_eq_ok] at hs
    obtain ⟨i, -, ⟨pmm1, c1⟩, halloc, ⟨pmm2, c2⟩, hload, hs⟩ := hs
    cases hs
    obtain ⟨free1, ht1, hc1, hh1, -, -⟩ := allocProcessSpace_plain hl hk halloc
    have hempty := allocProcessSpace_heap halloc
    obtain ⟨free2, ht2, hc2⟩ := elfLoad_plain phs _ _ _ ht1.listed hc1 hh1 hempty hop hload
    have ht := ht1.trans ht2
    exact .put hk hprocs ht.listed (fun q hq => ht.mem_of_mem hq) ht.start_eq hc2
  | allocatePage p =>
    obtain ⟨c, pmm1, c1, hc, halloc, rfl⟩ := VmSys.onSpace_inv hs
    obtain ⟨hplain, hholds⟩ := hprocs p c hc
    obtain ⟨free1, ht1, hc1⟩ := sysUserAllocatePage_plain hl hplain hholds halloc
    exact .put hk hprocs ht1.listed (fun q hq => ht1.mem_of_mem hq) ht1.start_eq hc1
  | store p sp va b =>
    obtain ⟨c, pmm1, c1, hc, hstore, rfl⟩ := VmSys.onSpace_inv hs
    obtain ⟨hplain, hholds⟩ := hprocs p c hc
    obtain ⟨free1, hl1, hsub, hst, hc1⟩ := userStore_plain hl hplain hholds hstore
    exact .put hk hprocs hl1 hsub hst hc1
  | fork p garbage => exact hop.elim
  | exec p phs => exact hop.elim
  | freePage p va => exact hop.elim

theorem VmSys.Started.settled (h0 : s₀.Started) (h : Reaches VmSys.step VmSys.Unforked s₀ s) :
    s.Settled := by
  refine h.invariant VmSys.Settled ?_ (fun _ _ _ hi hop hs => hi.step hop hs)
  obtain ⟨free, hl⟩ := h0.listed
  refine ⟨h0.kernel, free, hl, fun p c hp => ?_⟩
  simp [h0.empty] at hp

theorem VmSys.Settled.fork_copied {i : Nat} {parent child : Space} {garbage : Nat → Bool}
    (h : s.Settled) (hp : s.procs p = some parent) (hi : s.freeSlot = .ok i)
    (hs : s.step (.fork p garbage) = .ok s') (hc : s'.procs i = some child) :
    ∃ free, Copying s.pmm.mem parent s'.pmm child.pagetable free parent.Registered := by
  obtain ⟨hk, free, hl, hprocs⟩ := h
  obtain ⟨c, j, pmm1, c1, hpar, hj, hf, rfl⟩ := VmSys.fork_inv hs
  cases hi.symm.trans hj
  cases hp.symm.trans hpar
  simp only [VmSys.put, update_self, Option.some.injEq] at hc
  subst hc
  exact doForkSpace_copies hl hk (hprocs p _ hp).1 (hprocs p _ hp).2 hf

theorem translate_of_lt {va : Nat} (h : va < MAXVA) :
    c.translate va = c.pagetable.entry (va / PGSIZE) := if_pos h

/-- **fork copies what is registered**: a child has every page outside the
heap that its parent has, with the same bytes, exactly when each of them is
the page of a region. The fork must not use up the last free page. -/
theorem fork_copies_iff {i : Nat} {parent child : Space} {garbage : Nat → Bool}
    (h₀ : s₀.Started) (hrun : Reaches VmSys.step VmSys.Unforked s₀ s)
    (hp : s.procs p = some parent) (hi : s.freeSlot = .ok i)
    (hs : s.step (.fork p garbage) = .ok s') (hc : s'.procs i = some child)
    (hroom : s'.pmm.gFreeMemList ≠ 0) :
    (∀ va, va < MAXVA → ¬ parent.InHeap (va / PGSIZE) →
        (parent.translate va).userMapped = true →
        (child.translate va).userMapped = true ∧
          userLoad s'.pmm child va = userLoad s'.pmm parent va) ↔
      ∀ va, va < MAXVA → ¬ parent.InHeap (va / PGSIZE) →
        (parent.translate va).userMapped = true → parent.Registered (va / PGSIZE) := by
  have hsettled := h₀.settled hrun
  obtain ⟨free, hcopy⟩ := hsettled.fork_copied hp hi hs hc
  obtain ⟨-, free₀, -, hprocs⟩ := hsettled
  have hplain := (hprocs p parent hp).1
  have hne : free ≠ [] := by
    rintro rfl
    exact hroom (by simpa using hcopy.listed.chain)
  constructor
  · intro hclaim va hlt hin hm
    have hm' := (hclaim va hlt hin hm).1
    rw [translate_of_lt hlt] at hm'
    rcases hcopy.only _ hm' with hreg | hstack | hheap
    · exact hreg
    · exact hplain.registered_iff.mpr (.inl hstack)
    · exact absurd hheap hin
  · intro hreg va hlt hin hm
    have hr := hreg va hlt hin hm
    have hpage := hcopy.copied hne _ hr
    have hload := hpage.loadable
    have hoff : va % PGSIZE < PGSIZE := Nat.mod_lt _ (by decide)
    obtain ⟨hst, hread⟩ := hplain.usable _ hr
    simp only [Pte.storable, Bool.and_eq_true] at hst
    have hpload : (parent.pagetable.entry (va / PGSIZE)).loadable = true := by
      simp [Pte.loadable, hst, hread]
    refine ⟨?_, ?_⟩
    · rw [translate_of_lt hlt]
      simp only [Pte.loadable, Bool.and_eq_true] at hload
      simp [Pte.userMapped, hload]
    · simp only [userLoad, translate_of_lt hlt, hload, hpload, if_true]
      rw [hpage.same _ hoff, hcopy.kept _ hst.1.1 _ hoff]

end

/-! ## A small machine -/

instance VmSys.Unforked.decidable (s : VmSys T) : ∀ op, Decidable (s.Unforked op)
  | .load phs => inferInstanceAs (Decidable (∀ ph ∈ phs, ph.isLoad = true → _ = 0 ∧ _ ≠ 0))
  | .allocatePage _ | .store _ _ _ _ => instDecidableTrue
  | .fork _ _ | .exec _ _ | .freePage _ _ => instDecidableFalse

theorem vmBoot_started {kernelEnd memSize trapSec : Nat} {mem : Mem} {refs : T} {s : VmSys T}
    (hk : KernelAt (ROUNDUP kernelEnd PGSIZE) trapSec) (hwf : RefTable.Wf refs)
    (hcnt : ∀ q, RefTable.count refs q = 0)
    (h : vmBoot kernelEnd memSize mem refs trapSec = .ok s) : s.Started := by
  simp only [vmBoot, bind_eq_ok] at h
  obtain ⟨pmm, hinit, h⟩ := h
  cases h
  obtain ⟨hst, free, hw, -⟩ := pmmInit_wf hwf hcnt hinit
  exact ⟨by rwa [hst], ⟨free, hw.toListed⟩, fun _ => rfl⟩

theorem vmSmall_started {s : VmSys RefList} (h : vmSmall ([] : RefList) = .ok s) : s.Started := by
  have hwf : RefTable.Wf ([] : RefList) := ⟨List.Pairwise.nil, by simp⟩
  exact vmBoot_started ⟨by decide, by decide, by decide⟩ hwf (fun _ => rfl) h

/-- A process that wrote one of its data pages and took a heap page. -/
theorem fork_copies_iff_loaded :
    ∃ (s₀ s s' : VmSys RefList) (parent child : Space), s₀.Started ∧
      Reaches VmSys.step VmSys.Unforked s₀ s ∧ s.procs 0 = some parent ∧
      s.step (.fork 0 (fun _ => false)) = .ok s' ∧ s'.procs 1 = some child ∧
      userLoad s'.pmm child 0x11008 = some 7 ∧
      ((∀ va, va < MAXVA → ¬ parent.InHeap (va / PGSIZE) →
          (parent.translate va).userMapped = true →
          (child.translate va).userMapped = true ∧
            userLoad s'.pmm child va = userLoad s'.pmm parent va) ↔
        ∀ va, va < MAXVA → ¬ parent.InHeap (va / PGSIZE) →
          (parent.translate va).userMapped = true → parent.Registered (va / PGSIZE)) := by
  obtain ⟨s₀, hboot, s, hrun, parent, hp, hi, s', hs, child, hc, hload, hroom⟩ :
      ∃ s₀, vmSmall ([] : RefList) = .ok s₀ ∧ ∃ s, Runs VmSys.step VmSys.Unforked s₀
        [.load [segmentAt 0x10000 5, segmentAt 0x11000 6], .store 0 0x7fffe000 0x11008 7,
          .allocatePage 0] s ∧
      ∃ parent, s.procs 0 = some parent ∧ s.freeSlot = .ok 1 ∧
      ∃ s', s.step (.fork 0 (fun _ => false)) = .ok s' ∧
      ∃ child, s'.procs 1 = some child ∧ userLoad s'.pmm child 0x11008 = some 7 ∧
        s'.pmm.gFreeMemList ≠ 0 := by decide +kernel
  have hreach := hrun.reaches .start
  exact ⟨s₀, s, s', parent, child, vmSmall_started hboot, hreach, hp, hs, hc, hload,
    fork_copies_iff (vmSmall_started hboot) hreach hp hi hs hc hroom⟩

/-- A process writes below its stack page, gets a page there, writes it and
forks: its child has no page there. -/
theorem fork_drops_grown_stack :
    ∃ (s₀ s s' : VmSys RefList) (parent child : Space), s₀.Started ∧
      Reaches VmSys.step VmSys.Unforked s₀ s ∧ s.procs 0 = some parent ∧
      s.step (.fork 0 (fun _ => false)) = .ok s' ∧ s'.procs 1 = some child ∧
      ¬ parent.InHeap (0x7fffd800 / PGSIZE) ∧ (parent.translate 0x7fffd800).userMapped = true ∧
      userLoad s'.pmm parent 0x7fffd800 = some 7 ∧
      (child.translate 0x7fffd800).userMapped = false := by
  obtain ⟨s₀, hboot, s, hrun, parent, hp, hempty, hm, s', hs, hload, child, hc, hct⟩ :
      ∃ s₀, vmSmall ([] : RefList) = .ok s₀ ∧ ∃ s, Runs VmSys.step VmSys.Unforked s₀
        [.load [segmentAt 0x10000 5, segmentAt 0x11000 6], .store 0 0x7fffd000 0x7fffd800 7,
          .store 0 0x7fffd000 0x7fffd800 7] s ∧
      ∃ parent, s.procs 0 = some parent ∧ parent.heapTop = parent.heapBottom ∧
        (parent.translate 0x7fffd800).userMapped = true ∧
      ∃ s', s.step (.fork 0 (fun _ => false)) = .ok s' ∧
        userLoad s'.pmm parent 0x7fffd800 = some 7 ∧
      ∃ child, s'.procs 1 = some child ∧ (child.translate 0x7fffd800).userMapped = false := by
    decide +kernel
  exact ⟨s₀, s, s', parent, child, vmSmall_started hboot, hrun.reaches .start, hp, hs, hc,
    not_inHeap_of_empty hempty _, hm, hload, hct⟩

end CabbagePKE
