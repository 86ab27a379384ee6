import CabbagePKE.Vm.Build

/-!
# Loaded processes

The address space of a process that has loaded a program, taken heap pages
and written to its memory. Nothing here gives a page back, so the reference
table plays no part: a page that is mapped is off the free list for good.
-/

namespace CabbagePKE

open Lib Function List

variable {T : Type} [RefTable T]

def Pte.userMapped (e : Pte) : Bool := e.v && e.perm.u

def Pte.Usable (e : Pte) : Prop := e.storable = true ∧ e.perm.r = true

/-- A region whose pages `do_fork` gives the child one by one. -/
def MappedRegion.Copied (r : MappedRegion) : Prop :=
  r.segType = .stack ∨ r.segType = .code ∨ r.segType = .data

def Space.Registered (c : Space) (v : Nat) : Prop :=
  ∃ r ∈ c.regions, r.Copied ∧ r.va / PGSIZE = v

structure MappedRegion.IsSegment (r : MappedRegion) : Prop where
  kind : r.segType = .code ∨ r.segType = .data
  npages : r.npages = 1
  aligned : r.va % PGSIZE = 0
  named : r.va ≠ 0

/-- A process as `load_user_program` makes it, with a grown stack and heap:
its regions are the stack page, the trapframe, the trap vector, the heap
and the segments. User code can read and write the pages of the first and
the last; none of them lies in the heap. -/
structure Space.Plain (c : Space) : Prop where
  stack : c.mappedInfo 0 = ⟨USER_STACK_TOP - PGSIZE, 1, .stack⟩
  context : (c.mappedInfo 1).segType = .context ∧ (c.mappedInfo 1).va ≠ 0
  system : (c.mappedInfo 2).segType = .system ∧ (c.mappedInfo 2).va ≠ 0
  heap : (c.mappedInfo 3).segType = .heap ∧ (c.mappedInfo 3).va ≠ 0
  four_le : 4 ≤ c.totalMappedRegion
  segment : ∀ j, 4 ≤ j → j < c.totalMappedRegion → (c.mappedInfo j).IsSegment
  beyond : ∀ j, c.totalMappedRegion ≤ j → (c.mappedInfo j).va = 0
  usable : ∀ v, c.Registered v → (c.pagetable.entry v).Usable
  apart : ∀ v, c.Registered v → ¬ c.InHeap v
  unmarked : ∀ v, (c.pagetable.entry v).rsw = 0
  bottom : c.heapBottom = USER_FREE_ADDRESS_START
  top : c.heapTop % PGSIZE = 0
  freed : c.freePages = []

/-- The pages the table maps are whole pages, and none of them is free. -/
def PageTable.Holds (pt : PageTable) (free : List Nat) : Prop :=
  ∀ v, (pt.entry v).v = true → (pt.entry v).pa % PGSIZE = 0 ∧ (pt.entry v).pa ∉ free

/-! ## Tables and the free list -/

section

variable {s s' : Pmm T} {pt pt' : PageTable} {free free' : List Nat}

theorem allocPage_fresh {p : Nat} (h : s.Listed free) (ha : allocPage s = .ok (p, s')) :
    s'.mem = s.mem ∧ p % PGSIZE = 0 ∧ (p = 0 ∨ p ∈ free) ∧
      ∃ rest, p ∉ rest ∧ Took s s' free rest := by
  have hm := (allocPage_inv h ha).1
  by_cases hp : p = 0
  · subst hp
    exact ⟨hm, by decide, .inl rfl, [], by simp, allocPage_null h ha⟩
  · obtain ⟨rest, rfl, ht⟩ := allocPage_took (m := s'.mem) h ha hp (fun x _ => by rw [hm])
    exact ⟨hm, (h.managed p (by simp)).1, .inr (by simp), rest, (nodup_cons.mp h.chain.nodup).1, ht⟩

omit [RefTable T] in
theorem Took.write {p : Nat} {m : Mem} (h : Took s s' free free')
    (hfree : p = 0 ∨ p ∈ free) (hl : s.Listed free) (hp : p ∉ free') (hp0 : p ≠ 0)
    (hm : ∀ x, x < p ∨ p + PGSIZE ≤ x → m x = s'.mem x) :
    Took s { s' with mem := m } free free' := by
  have hpf : p ∈ free := hfree.resolve_left hp0
  have ha : p % PGSIZE = 0 := (hl.managed p hpf).1
  obtain ⟨taken, htaken, hmem⟩ := h.taken
  have hpt : p ∈ taken := by
    rw [htaken] at hpf
    exact (mem_append.mp hpf).resolve_right hp
  refine ⟨h.listed.write (fun q hq i hi => ?_), ⟨taken, htaken, fun x hx => ?_⟩, h.start_eq,
    h.end_eq⟩
  · have hne : p ≠ q := fun heq => hp (heq ▸ hq)
    have hap := page_apart ha (hl.managed q (h.mem_of_mem hq)).1 hne
    refine hm _ ?_
    unfold PGSIZE at *
    omega
  · exact (hm x (hx p hpt)).trans (hmem x hx)

omit [RefTable T] in
theorem PageTable.Holds.took (h : pt.Holds free) (ht : Took s s' free free') : pt.Holds free' := by
  intro v hv
  exact ⟨(h v hv).1, fun hmem => (h v hv).2 (ht.mem_of_mem hmem)⟩

theorem PageTable.Holds.set {v pa : Nat} {perm : Perm} (h : pt.Holds free)
    (hent : ∀ w, pt'.entry w = if w = v then Pte.leaf pa perm else pt.entry w)
    (ha : pa % PGSIZE = 0) (hn : pa ∉ free) : pt'.Holds free := by
  intro w hw
  rw [hent] at hw ⊢
  split at hw
  · rename_i hwv
    rw [if_pos hwv]
    rw [leaf_pa_of_aligned perm ha]
    exact ⟨ha, hn⟩
  · rename_i hwv
    rw [if_neg hwv]
    exact h w hw

theorem leaf_unmarked {v pa : Nat} {perm : Perm} (h : ∀ w, (pt.entry w).rsw = 0)
    (hent : ∀ w, pt'.entry w = if w = v then Pte.leaf pa perm else pt.entry w) (w : Nat) :
    (pt'.entry w).rsw = 0 := by
  rw [hent]
  split
  · rfl
  · exact h w

end

/-! ## Loaded processes stay plain -/

section

variable {s s' : Pmm T} {c c' : Space} {free : List Nat} {trapSec : Nat}

theorem regions_eq (h : 4 ≤ c.totalMappedRegion) :
    c.regions = c.mappedInfo 0 :: c.mappedInfo 1 :: c.mappedInfo 2 :: c.mappedInfo 3 ::
      (List.range (c.totalMappedRegion - 4)).map (fun k => c.mappedInfo (k + 4)) := by
  obtain ⟨k, hk⟩ : ∃ k, c.totalMappedRegion = k + 4 := ⟨c.totalMappedRegion - 4, by omega⟩
  rw [Space.regions, hk, Nat.add_sub_cancel]
  simp [range_succ_eq_map, comp_def]

theorem Space.Plain.registered_iff (h : c.Plain) {v : Nat} :
    c.Registered v ↔ v = stackVpn ∨
      ∃ j, 4 ≤ j ∧ j < c.totalMappedRegion ∧ (c.mappedInfo j).va / PGSIZE = v := by
  constructor
  · rintro ⟨r, hr, hcop, hva⟩
    obtain ⟨j, hj, rfl⟩ := mem_map.mp hr
    rw [mem_range] at hj
    by_cases h4 : 4 ≤ j
    · exact .inr ⟨j, h4, hj, hva⟩
    · have hcases : j = 0 ∨ j = 1 ∨ j = 2 ∨ j = 3 := by omega
      rcases hcases with rfl | rfl | rfl | rfl
      · rw [h.stack] at hva
        exact .inl hva.symm
      · simp [MappedRegion.Copied, h.context.1] at hcop
      · simp [MappedRegion.Copied, h.system.1] at hcop
      · simp [MappedRegion.Copied, h.heap.1] at hcop
  · rintro (rfl | ⟨j, h4, hj, hva⟩)
    · have hlt := h.four_le
      refine ⟨c.mappedInfo 0, mem_map_of_mem (by rw [mem_range]; omega), ?_, ?_⟩
      · rw [h.stack]
        exact .inl rfl
      · rw [h.stack]
        rfl
    · exact ⟨c.mappedInfo j, mem_map_of_mem (mem_range.mpr hj), .inr (h.segment j h4 hj).kind, hva⟩

theorem Space.Plain.withTable (h : c.Plain) {pt : PageTable}
    (husable : ∀ v, c.Registered v → (pt.entry v).Usable)
    (hunmarked : ∀ v, (pt.entry v).rsw = 0) : Space.Plain { c with pagetable := pt } :=
  ⟨h.stack, h.context, h.system, h.heap, h.four_le, h.segment, h.beyond, husable, h.apart,
    hunmarked, h.bottom, h.top, h.freed⟩

theorem Space.Plain.addPage (h : c.Plain) {pt : PageTable} {v pa : Nat} {perm : Perm}
    (hent : ∀ w, pt.entry w = if w = v then Pte.leaf pa perm else c.pagetable.entry w)
    (hfree : (c.pagetable.entry v).storable = false) :
    Space.Plain { c with pagetable := pt } := by
  refine h.withTable (fun w hw => ?_) (leaf_unmarked h.unmarked hent)
  have huse := h.usable w hw
  have hne : w ≠ v := by
    rintro rfl
    simp [huse.1] at hfree
  rwa [hent, if_neg hne]

/-! ### A new process -/

theorem initSpace_plain {pt : PageTable} {lo trapframe userStack : Nat} (hk : KernelAt lo trapSec)
    (htf : trapframe % PGSIZE = 0 ∧ trapframe ≠ 0) (hpt : ∀ v, pt.entry v = Pte.zero)
    (h : initSpace s trapSec pt trapframe userStack = .ok (s', c)) :
    c.Plain ∧ (∀ v, (c.pagetable.entry v).userMapped = true → v = stackVpn) ∧
      c.pagetable.entry stackVpn = Pte.leaf userStack (protToType true true false true) := by
  obtain ⟨s1, pt1, s2, pt2, pt3, h1, h2, h3, rfl⟩ := initSpace_inv h
  have he1 : ∀ v, pt1.entry v = if v = stackVpn then
      Pte.leaf userStack (protToType true true false true) else pt.entry v :=
    (userVmMap_entry (by decide) h1).2.2
  obtain ⟨-, -, he2⟩ := userVmMap_entry htf.1 h2
  obtain ⟨-, -, he3⟩ := userVmMap_entry hk.aligned h3
  have hv1 : pt1.entry stackVpn = Pte.leaf userStack (protToType true true false true) := by
    rw [he1, if_pos rfl]
  have hne2 : stackVpn ≠ trapframe / PGSIZE := by
    intro heq
    have hun := userVmMap_unmapped htf.1 h2
    rw [← heq, hv1] at hun
    cases hun
  have hv2 : pt2.entry stackVpn = Pte.leaf userStack (protToType true true false true) := by
    rw [he2, if_neg hne2, hv1]
  have hne3 : stackVpn ≠ trapSec / PGSIZE := by
    intro heq
    have hun := userVmMap_unmapped hk.aligned h3
    rw [← heq, hv2] at hun
    cases hun
  have hv3 : pt3.entry stackVpn = Pte.leaf userStack (protToType true true false true) := by
    rw [he3, if_neg hne3, hv2]
  have hun : ∀ v, (pt.entry v).rsw = 0 := fun v => by rw [hpt]; rfl
  have hsec : trapSec ≠ 0 := by
    have := hk.base_le
    unfold KERN_BASE at this
    omega
  have hheap : USER_FREE_ADDRESS_START ≠ 0 ∧ USER_FREE_ADDRESS_START % PGSIZE = 0 := by decide
  refine ⟨⟨rfl, ⟨rfl, htf.2⟩, ⟨rfl, hsec⟩, ⟨rfl, hheap.1⟩, le_rfl, ?_, ?_, ?_,
    fun v _ => not_inHeap_of_empty rfl v, ?_, rfl, hheap.2, rfl⟩, ?_, hv3⟩
  · intro j h4 hj
    exact absurd h4 (by simpa using hj)
  · intro j hj
    obtain ⟨k, rfl⟩ : ∃ k, j = k + 4 := ⟨j - 4, by simp only at hj; omega⟩
    rfl
  · rintro v ⟨r, hr, hcop, rfl⟩
    simp only [Space.regions, range_succ_eq_map, range_zero, map_nil,
      map_cons, mem_cons, not_mem_nil, or_false] at hr
    rcases hr with rfl | rfl | rfl | rfl
    · show (pt3.entry stackVpn).Usable
      rw [hv3]
      exact ⟨rfl, rfl⟩
    · simp [MappedRegion.Copied, initialRegions] at hcop
    · simp [MappedRegion.Copied, initialRegions] at hcop
    · simp [MappedRegion.Copied, initialRegions] at hcop
  · exact leaf_unmarked (leaf_unmarked (leaf_unmarked hun he1) he2) he3
  · intro v hv
    by_contra hne
    simp only [he3, he2, he1, hpt, if_neg hne] at hv
    split at hv
    · cases hv
    · split at hv <;> cases hv

theorem initSpace_took {pt : PageTable} {trapframe userStack : Nat} (hl : s.Listed free)
    (hk : KernelAt s.freeMemStartAddr trapSec)
    (htf : trapframe % PGSIZE = 0 ∧ trapframe ∉ free)
    (hstk : userStack % PGSIZE = 0 ∧ userStack ∉ free) (hpt : ∀ v, pt.entry v = Pte.zero)
    (h : initSpace s trapSec pt trapframe userStack = .ok (s', c)) :
    ∃ free', Took s s' free free' ∧ c.pagetable.Holds free' := by
  obtain ⟨s1, pt1, s2, pt2, pt3, h1, h2, h3, rfl⟩ := initSpace_inv h
  obtain ⟨-, -, he1⟩ := userVmMap_entry (by decide) h1
  obtain ⟨-, -, he2⟩ := userVmMap_entry htf.1 h2
  obtain ⟨-, -, he3⟩ := userVmMap_entry hk.aligned h3
  obtain ⟨free1, ht1⟩ := userVmMap_took hl h1
  obtain ⟨free2, ht2⟩ := userVmMap_took ht1.listed h2
  obtain ⟨free3, ht3⟩ := userVmMap_took ht2.listed h3
  have ht := (ht1.trans ht2).trans ht3
  have hsec : trapSec ∉ free := by
    intro hmem
    have := (hl.managed _ hmem).2.1
    have := hk.lt_lo
    omega
  have hzero : pt.Holds free := fun v hv => by
    rw [hpt] at hv
    cases hv
  exact ⟨free3, ht, (((hzero.set he1 hstk.1 hstk.2).set he2 htf.1 htf.2).set he3 hk.aligned
    hsec).took ht⟩

theorem allocProcessSpace_pages (hl : s.Listed free)
    (h : allocProcessSpace s trapSec = .ok (s', c)) :
    ∃ tf stk dir s1 free1 s2 pf, Took s s1 free free1 ∧ tf ≠ 0 ∧ (tf ∈ free ∧ tf ∉ free1) ∧
      (stk ∈ free ∧ stk ∉ free1) ∧ initSpace s1 trapSec (.empty dir) tf stk = .ok (s2, c) ∧
      allocPage s2 = .ok (pf, s') := by
  obtain ⟨tf, s1, dir, s2, ks, s3, stk, s4, info, s5, s6, pf, h1, htf, h2, hdir, h3, h4, h5,
    hinfo, h6, h7⟩ := allocProcessSpace_inv h
  obtain ⟨hm1, -, htff, free1, hnew1, ht1⟩ := allocPage_fresh hl h1
  have ht1' := ht1.write htff hl hnew1 htf (m := fillBytes s1.mem tf 0 trapframeSize)
    (fun x hx => fillBytes_outside (by unfold PGSIZE trapframeSize at *; omega))
  obtain ⟨hm2, -, hdirf, free2, hnew2, ht2⟩ := allocPage_fresh ht1'.listed h2
  have ht2' := ht2.write hdirf ht1'.listed hnew2 hdir (m := fillBytes s2.mem dir 0 PGSIZE)
    (fun x hx => fillBytes_outside hx)
  obtain ⟨hm3, -, -, free3, hnew3, ht3⟩ := allocPage_fresh ht2'.listed h3
  obtain ⟨hm4, -, hstkf, free4, hnew4, ht4⟩ := allocPage_fresh ht3.listed h4
  obtain ⟨hm5, -, hinfof, free5, hnew5, ht5⟩ := allocPage_fresh ht4.listed h5
  have ht5' := ht5.write hinfof ht4.listed hnew5 hinfo (m := fillBytes s5.mem info 0 PGSIZE)
    (fun x hx => fillBytes_outside hx)
  have hto4 := (ht1'.trans ht2').trans ht3
  -- a page was left for the regions, so the stack got one
  have hstk : stk ∈ free3 := by
    refine hstkf.resolve_left ?_
    rintro rfl
    have hnil := (allocPage_null ht3.listed h4).listed
    obtain ⟨-, -, -, ⟨h0, -⟩ | ⟨rest, -, hcons, -⟩⟩ := allocPage_inv hnil h5
    · exact hinfo h0
    · cases hcons
  refine ⟨tf, stk, dir, _, free5, s6, pf, (hto4.trans ht4).trans ht5', htf,
    ⟨htff.resolve_left htf, ?_⟩, ⟨hto4.mem_of_mem hstk, ?_⟩, h6, h7⟩
  · exact fun hmem => hnew1 ((((ht2'.trans ht3).trans ht4).trans ht5').mem_of_mem hmem)
  · exact fun hmem => hnew4 (ht5'.mem_of_mem hmem)

theorem allocProcessSpace_plain (hl : s.Listed free) (hk : KernelAt s.freeMemStartAddr trapSec)
    (h : allocProcessSpace s trapSec = .ok (s', c)) :
    ∃ free', Took s s' free free' ∧ c.Plain ∧ c.pagetable.Holds free' ∧
      (∀ v, (c.pagetable.entry v).userMapped = true → v = stackVpn) ∧
      ((c.pagetable.entry stackVpn).pa = 0 ∨ (c.pagetable.entry stackVpn).pa ∈ free) := by
  obtain ⟨tf, stk, dir, s1, free1, s2, pf, ht1, htf, ⟨htff, htf1⟩, ⟨hstkf, hstk1⟩, hinit, hpf⟩ :=
    allocProcessSpace_pages hl h
  have htfa := (hl.managed tf htff).1
  have hstka := (hl.managed stk hstkf).1
  have hzero : ∀ v, (PageTable.empty dir).entry v = Pte.zero := fun v => by
    simp [PageTable.entry, PageTable.empty]
  have hk1 : KernelAt s1.freeMemStartAddr trapSec := by rwa [ht1.start_eq]
  obtain ⟨hplain, honly, hstack⟩ := initSpace_plain hk ⟨htfa, htf⟩ hzero hinit
  obtain ⟨free2, ht2, hholds⟩ :=
    initSpace_took ht1.listed hk1 ⟨htfa, htf1⟩ ⟨hstka, hstk1⟩ hzero hinit
  obtain ⟨-, -, -, free3, -, ht3⟩ := allocPage_fresh ht2.listed hpf
  refine ⟨free3, (ht1.trans ht2).trans ht3, hplain, hholds.took ht3, honly, .inr ?_⟩
  rwa [hstack, leaf_pa_of_aligned _ hstka]

/-! ### Loading, growing, writing -/

theorem recordRegion_plain {va : Nat} {segType : SegType} (h : c.Plain)
    (hrec : recordRegion c va segType = .ok c') :
    c' = { c with
      mappedInfo := update c.mappedInfo c.totalMappedRegion ⟨va, 1, segType⟩
      totalMappedRegion := c.totalMappedRegion + 1 } := by
  unfold recordRegion at hrec
  split at hrec
  · cases hrec
  · rename_i j hj
    cases hrec
    rw [find?_range_eq_some] at hj
    obtain ⟨hz, -, hfirst⟩ := hj
    have hz' : (c.mappedInfo j).va = 0 := by simpa using hz
    have hge : c.totalMappedRegion ≤ j := by
      by_contra hlt
      by_cases h4 : 4 ≤ j
      · exact (h.segment j h4 (by omega)).named hz'
      · have hcases : j = 0 ∨ j = 1 ∨ j = 2 ∨ j = 3 := by omega
        rcases hcases with rfl | rfl | rfl | rfl
        · rw [h.stack] at hz'
          exact absurd hz' (by decide)
        · exact h.context.2 hz'
        · exact h.system.2 hz'
        · exact h.heap.2 hz'
    have hle : j ≤ c.totalMappedRegion := by
      by_contra hgt
      have hne := hfirst c.totalMappedRegion (by omega)
      simp [h.beyond _ le_rfl] at hne
    rw [Nat.le_antisymm hle hge]

theorem segTypeOf_kind {flags : Nat} {t : SegType} (h : segTypeOf flags = some t) :
    t = .code ∨ t = .data := by
  unfold segTypeOf at h
  split at h
  · cases h
    exact .inl rfl
  · split at h
    · cases h
      exact .inr rfl
    · cases h

theorem Space.Plain.addSegment (h : c.Plain) {r : MappedRegion} (hr : r.IsSegment)
    (huse : (c.pagetable.entry (r.va / PGSIZE)).Usable) (hap : ¬ c.InHeap (r.va / PGSIZE)) :
    Space.Plain { c with
      mappedInfo := update c.mappedInfo c.totalMappedRegion r
      totalMappedRegion := c.totalMappedRegion + 1 } := by
  have h4 := h.four_le
  have hold : ∀ j, j ≠ c.totalMappedRegion →
      update c.mappedInfo c.totalMappedRegion r j = c.mappedInfo j :=
    fun j hj => update_of_ne hj _ _
  have hreg : ∀ v, Space.Registered { c with
      mappedInfo := update c.mappedInfo c.totalMappedRegion r
      totalMappedRegion := c.totalMappedRegion + 1 } v → v = r.va / PGSIZE ∨ c.Registered v := by
    rintro v ⟨r', hr', hcop, rfl⟩
    obtain ⟨j, hj, rfl⟩ := mem_map.mp hr'
    rw [mem_range] at hj
    simp only at hj hcop ⊢
    by_cases hjt : j = c.totalMappedRegion
    · subst hjt
      rw [update_self]
      exact .inl rfl
    · rw [hold j hjt] at hcop ⊢
      exact .inr ⟨_, mem_map_of_mem (mem_range.mpr (by omega)), hcop, rfl⟩
  refine ⟨?_, ?_, ?_, ?_, ?_, ?_, ?_, ?_, ?_, h.unmarked, h.bottom, h.top, h.freed⟩
  · simp only
    rw [hold 0 (by omega)]
    exact h.stack
  · simp only
    rw [hold 1 (by omega)]
    exact h.context
  · simp only
    rw [hold 2 (by omega)]
    exact h.system
  · simp only
    rw [hold 3 (by omega)]
    exact h.heap
  · simp only
    omega
  · intro j h4 hj
    simp only at hj ⊢
    by_cases hjt : j = c.totalMappedRegion
    · subst hjt
      rwa [update_self]
    · rw [hold j hjt]
      exact h.segment j h4 (by omega)
  · intro j hj
    simp only at hj ⊢
    rw [hold j (by omega)]
    exact h.beyond j (by omega)
  · intro v hv
    rcases hreg v hv with rfl | hv
    · exact huse
    · exact h.usable v hv
  · intro v hv
    rcases hreg v hv with rfl | hv
    · exact hap
    · exact h.apart v hv

/-- The segments of a program start on pages, and not at address 0. -/
def SegmentsPlaced (phs : List ElfProgHeader) : Prop :=
  ∀ ph ∈ phs, ph.isLoad = true → ph.vaddr % PGSIZE = 0 ∧ ph.vaddr ≠ 0

theorem elfAllocMb_took {pt pt' : PageTable} {va size dest : Nat} {m : Mem} (hl : s.Listed free)
    (h : elfAllocMb s pt va size = .ok (dest, s', pt'))
    (hm : ∀ x, x < dest ∨ dest + PGSIZE ≤ x → m x = s'.mem x) :
    dest ∈ free ∧ ∃ free', dest ∉ free' ∧ Took s { s' with mem := m } free free' := by
  obtain ⟨-, hdest, s2, ha, hmap⟩ := elfAllocMb_inv h
  obtain ⟨hm2, -, hdf, free1, hnew, ht1⟩ := allocPage_fresh hl ha
  have ht1' := ht1.write hdf hl hnew hdest (m := fillBytes s2.mem dest 0 PGSIZE)
    (fun x hx => fillBytes_outside hx)
  obtain ⟨free2, ht2⟩ := userVmMap_took ht1'.listed hmap
  have hnew2 : dest ∉ free2 := fun hmem => hnew (ht2.mem_of_mem hmem)
  exact ⟨hdf.resolve_left hdest, free2, hnew2, (ht1'.trans ht2).write hdf hl hnew2 hdest hm⟩

theorem loadSegment_plain {ph : ElfProgHeader} (hl : s.Listed free) (hc : c.Plain)
    (hh : c.pagetable.Holds free) (hempty : c.heapTop = c.heapBottom)
    (hal : ph.isLoad = true → ph.vaddr % PGSIZE = 0 ∧ ph.vaddr ≠ 0)
    (h : loadSegment s c ph = .ok (s', c')) :
    ∃ free', Took s s' free free' ∧ c'.Plain ∧ c'.pagetable.Holds free' ∧
      c'.heapTop = c'.heapBottom := by
  rcases loadSegment_inv h with ⟨-, rfl, rfl⟩ | ⟨hload, dest, s1, pt1, segType, hal1, rfl, hseg,
    hrec⟩
  · exact ⟨free, .refl hl, hc, hh, hempty⟩
  obtain ⟨hva, hva0⟩ := hal hload
  obtain ⟨hsize, -, s2, -, hmap⟩ := elfAllocMb_inv hal1
  obtain ⟨hdf, free2, hnew, ht⟩ := elfAllocMb_took hl hal1
    (m := copyBytes s1.mem dest ph.content 0 ph.memsz)
    (fun x hx => copyBytes_outside (by omega))
  have hda := (hl.managed dest hdf).1
  obtain ⟨-, -, hent⟩ := userVmMap_entry hva hmap
  have hun := userVmMap_unmapped hva hmap
  have hc1 : Space.Plain { c with pagetable := pt1 } :=
    hc.addPage hent (by simp [Pte.storable, hun])
  have huse : (pt1.entry (ph.vaddr / PGSIZE)).Usable := by
    rw [hent, if_pos rfl]
    exact ⟨rfl, rfl⟩
  have hc' := recordRegion_plain hc1 hrec
  subst hc'
  exact ⟨free2, ht, hc1.addSegment ⟨segTypeOf_kind hseg, rfl, hva, hva0⟩ huse
    (not_inHeap_of_empty hempty _), (hh.took ht).set hent hda hnew, hempty⟩

theorem elfLoad_plain : ∀ (phs : List ElfProgHeader) (s : Pmm T) (c : Space) (free : List Nat),
    s.Listed free → c.Plain → c.pagetable.Holds free → c.heapTop = c.heapBottom →
    SegmentsPlaced phs → elfLoad s c phs = .ok (s', c') →
    ∃ free', Took s s' free free' ∧ c'.Plain ∧ c'.pagetable.Holds free' := by
  intro phs
  induction phs with
  | nil =>
    intro s c free hl hc hh _ _ h
    cases h
    exact ⟨free, .refl hl, hc, hh⟩
  | cons ph phs ih =>
    intro s c free hl hc hh hempty hal h
    simp only [elfLoad, bind_eq_ok] at h
    obtain ⟨⟨s1, c1⟩, h1, h⟩ := h
    obtain ⟨free1, ht1, hc1, hh1, hempty1⟩ :=
      loadSegment_plain hl hc hh hempty (hal ph (by simp)) h1
    obtain ⟨free2, ht2, hc2, hh2⟩ := ih s1 c1 free1 ht1.listed hc1 hh1 hempty1
      (fun ph' hph => hal ph' (by simp [hph])) h
    exact ⟨free2, ht1.trans ht2, hc2, hh2⟩

theorem sysUserAllocatePage_plain (hl : s.Listed free) (hc : c.Plain)
    (hh : c.pagetable.Holds free) (h : sysUserAllocatePage s c = .ok (s', c')) :
    ∃ free', Took s s' free free' ∧ c'.Plain ∧ c'.pagetable.Holds free' := by
  obtain ⟨pa, s1, ha, ⟨va, rest, pt', hfp, -⟩ | ⟨-, pt', hmap, rfl⟩⟩ := sysUserAllocatePage_inv h
  · simp [hc.freed] at hfp
  obtain ⟨-, hpa, -, free1, hnew, ht1⟩ := allocPage_fresh hl ha
  obtain ⟨free2, ht2⟩ := userVmMap_took ht1.listed hmap
  have hnew2 : pa ∉ free2 := fun hmem => hnew (ht2.mem_of_mem hmem)
  obtain ⟨-, hlt, hent⟩ := userVmMap_entry hc.top hmap
  have hun := userVmMap_unmapped hc.top hmap
  have ht := ht1.trans ht2
  refine ⟨free2, ht, ?_, (hh.took ht).set hent hpa hnew2⟩
  have hc1 : Space.Plain { c with pagetable := pt' } :=
    hc.addPage hent (by simp [Pte.storable, hun])
  have h3 : ∀ j, j ≠ 3 → update c.mappedInfo 3
      { c.mappedInfo 3 with npages := (c.mappedInfo 3).npages + 1 } j = c.mappedInfo j :=
    fun j hj => update_of_ne hj _ _
  have h4 := hc.four_le
  have htop : u64 (c.heapTop + PGSIZE) = c.heapTop + PGSIZE := by
    unfold u64 PGSIZE MAXVA at *
    omega
  have hreg : ∀ v, Space.Registered { c with
      pagetable := pt'
      heapTop := u64 (c.heapTop + PGSIZE)
      mappedInfo := update c.mappedInfo 3
        { c.mappedInfo 3 with npages := (c.mappedInfo 3).npages + 1 } } v → c.Registered v := by
    rintro v ⟨r, hr, hcop, rfl⟩
    obtain ⟨j, hj, rfl⟩ := mem_map.mp hr
    rw [mem_range] at hj
    simp only at hj hcop ⊢
    by_cases hj3 : j = 3
    · subst hj3
      simp [MappedRegion.Copied, hc.heap.1] at hcop
    · rw [h3 j hj3] at hcop ⊢
      exact ⟨_, mem_map_of_mem (mem_range.mpr hj), hcop, rfl⟩
  refine ⟨hc.stack, hc.context, hc.system, ?_, hc.four_le, ?_, ?_,
    fun v hv => hc1.usable v (hreg v hv), ?_, hc1.unmarked, hc.bottom, ?_, hc.freed⟩
  · simp only
    rw [update_self]
    exact hc.heap
  · intro j h4 hj
    simp only at hj ⊢
    rw [h3 j (by omega)]
    exact hc.segment j h4 hj
  · intro j hj
    simp only at hj ⊢
    rw [h3 j (by omega)]
    exact hc.beyond j hj
  · -- the page below the new top was unmapped, so it is no registered page
    intro v hv hin
    have huse := (hc.usable v (hreg v hv)).1
    have hnot := hc.apart v (hreg v hv)
    have hne : v ≠ c.heapTop / PGSIZE := by
      rintro rfl
      simp [Pte.storable, hun] at huse
    unfold Space.InHeap at hnot hin
    simp only [htop] at hin
    unfold PGSIZE at *
    omega
  · have := hc.top
    simp only [htop]
    unfold PGSIZE at *
    omega

theorem userStore_plain {sp va : Nat} {b : UInt8} (hl : s.Listed free) (hc : c.Plain)
    (hh : c.pagetable.Holds free) (h : userStore s c sp va b = .ok (s', c')) :
    ∃ free', s'.Listed free' ∧ (∀ p ∈ free', p ∈ free) ∧
      s'.freeMemStartAddr = s.freeMemStartAddr ∧ c'.Plain ∧ c'.pagetable.Holds free' := by
  rcases userStore_inv h with ⟨hst, rfl, rfl⟩ | ⟨hst, -, pa, s1, pt1, ha, hpa, hw, rfl⟩ |
    ⟨-, -, -, -, hrsw, -⟩
  · obtain ⟨-, he, hv, -⟩ := translate_of_storable hst
    obtain ⟨hal, hfree⟩ := hh _ hv
    refine ⟨free, hl.write (fun p hp i hi => ?_), fun p hp => hp, rfl, hc, hh⟩
    have hne : p ≠ (c'.pagetable.entry (va / PGSIZE)).pa := fun heq => hfree (heq ▸ hp)
    have hap := page_apart (hl.managed p hp).1 hal hne
    rw [he]
    refine fillBytes_outside ?_
    unfold PGSIZE at *
    omega
  · obtain ⟨-, hpal, -, free1, hnew, ht1⟩ := allocPage_fresh hl ha
    obtain ⟨free2, ht2, -⟩ := pageWalk_took ht1.listed hw
    obtain ⟨hent, hwalks, hlt, -⟩ := pageWalk_entry hw
    have hset : ∀ w, (pt1.set (va / PGSIZE) (.leaf pa (protToType true true false true))).entry w
        = if w = va / PGSIZE then Pte.leaf pa (protToType true true false true)
          else c.pagetable.entry w := fun w => by
      rw [entry_set _ (hwalks rfl), hent]
    have ht := ht1.trans ht2
    have hnew2 : pa ∉ free2 := fun hmem => hnew (ht2.mem_of_mem hmem)
    rw [Space.translate, if_pos hlt] at hst
    exact ⟨free2, ht.listed, fun p hp => ht.mem_of_mem hp, ht.start_eq, hc.addPage hset hst,
      (hh.took ht).set hset hpal hnew2⟩
  · simp [hc.unmarked] at hrsw

end

end CabbagePKE
