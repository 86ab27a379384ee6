import CabbagePKE.Vm.Inversion
import CabbagePKE.Vm.Ledger

/-!
# Building an address space

`alloc_process` and `elf_load` against the ledger. `Space.Ok` is what a
process's regions and heap bounds say about its page table; a space under
construction is held in the ledger as the table of the slot it is meant
for.
-/

namespace CabbagePKE

open Lib Function List PageTable
open GuardedTable (Good)

variable {T : Type} [GuardedTable T]

/-! ## One table among the entries -/

/-- One beyond the last virtual page; the ledger keeps the reference to the
page directory there. -/
def dirSlot : Nat := MAXVA / PGSIZE

def stackVpn : Nat := (USER_STACK_TOP - PGSIZE) / PGSIZE

def PageTable.entries (pt : PageTable) (v : Nat) : Pte :=
  if v = dirSlot then ⟨pt.dir, true, protToType true true false false, 0⟩ else pt.entry v

def withTable (ent : Entries) (i : Nat) (pt : PageTable) : Entries :=
  fun q v => if q = i then pt.entries v else ent q v

section

variable {ent : Entries} {i v : Nat} {pt pt' : PageTable} {e : Pte}

theorem withTable_self (ent : Entries) (i : Nat) (pt : PageTable) (v : Nat) :
    withTable ent i pt i v = pt.entries v := if_pos rfl

theorem withTable_of_ne {q : Nat} (h : q ≠ i) : withTable ent i pt q v = ent q v := if_neg h

theorem entries_of_lt (h : v < dirSlot) : pt.entries v = pt.entry v := if_neg (h.ne)

theorem vpn_lt_dirSlot {va : Nat} (h : va < MAXVA) : va / PGSIZE < dirSlot := by
  unfold dirSlot MAXVA PGSIZE at *
  omega

theorem withTable_congr (hent : ∀ vpn, pt'.entry vpn = pt.entry vpn) (hdir : pt'.dir = pt.dir) :
    withTable ent i pt' = withTable ent i pt := by
  funext q w
  simp only [withTable, entries, hent, hdir]

theorem withTable_set (ent : Entries) (i : Nat)
    (hent : ∀ vpn, pt'.entry vpn = if vpn = v then e else pt.entry vpn)
    (hdir : pt'.dir = pt.dir) (hv : v < dirSlot) (q w : Nat) :
    withTable ent i pt' q w = if q = i ∧ w = v then e else withTable ent i pt q w := by
  by_cases hq : q = i
  · by_cases hw : w = v
    · subst hq hw
      rw [if_pos ⟨rfl, rfl⟩, withTable_self, entries_of_lt hv, hent, if_pos rfl]
    · rw [if_neg (fun h => hw h.2)]
      simp only [withTable, entries, hent, hdir, if_neg hw]
  · rw [if_neg (fun h => hq h.1), withTable_of_ne hq, withTable_of_ne hq]

end

/-! ## Well-formed spaces -/

def Space.InHeap (c : Space) (v : Nat) : Prop :=
  c.heapBottom / PGSIZE ≤ v ∧ v < c.heapTop / PGSIZE

/-- A region other than the heap: unused, or one page outside the heap. -/
def Space.RegionOk (c : Space) (r : MappedRegion) : Prop :=
  r.segType ≠ .heap ∧
    (r.npages = 0 ∧ r.segType = .stack ∨
      r.npages = 1 ∧ r.va % PGSIZE = 0 ∧ r.va < MAXVA ∧ ¬ c.InHeap (r.va / PGSIZE))

/-- The bounds of the heap and the registered regions fit the page table. -/
structure Space.Ok (c : Space) : Prop where
  bottom : c.heapBottom = USER_FREE_ADDRESS_START
  aligned : c.heapTop % PGSIZE = 0
  bottom_le : c.heapBottom ≤ c.heapTop
  top_le : c.heapTop ≤ USER_STACK_TOP - PGSIZE
  stack : (c.pagetable.entry stackVpn).v = true
  heapRegion : (c.mappedInfo 3).segType = .heap ∧
    (c.mappedInfo 3).npages = (c.heapTop - c.heapBottom) / PGSIZE
  named : ∀ i, i < 4 → (c.mappedInfo i).va ≠ 0
  four_le : 4 ≤ c.totalMappedRegion
  beyond : ∀ i, c.totalMappedRegion ≤ i → c.mappedInfo i = .zero
  region : ∀ i, i ≠ 3 → c.RegionOk (c.mappedInfo i)
  freed : ∀ va ∈ c.freePages, va % PGSIZE = 0 ∧ c.heapBottom ≤ va ∧ va < c.heapTop

/-- Where the kernel image lies: below the managed pages from `lo` on, with
the trap vector in a page of its own. -/
structure KernelAt (lo trapSec : Nat) : Prop where
  base_le : KERN_BASE ≤ trapSec
  aligned : trapSec % PGSIZE = 0
  lt_lo : trapSec < lo

section

variable {c : Space} {pt : PageTable}

theorem Space.Ok.inHeap_lt (h : c.Ok) {v : Nat} (hv : c.InHeap v) : v < stackVpn := by
  have h1 := h.top_le
  have h2 := hv.2
  unfold stackVpn USER_STACK_TOP PGSIZE at *
  omega

theorem Space.Ok.registered (h : c.Ok) {j : Nat} (hn : (c.mappedInfo j).npages = 1) :
    j < c.totalMappedRegion := by
  by_contra hge
  rw [h.beyond j (by omega)] at hn
  simp [MappedRegion.zero] at hn

theorem Space.Ok.setTable (h : c.Ok) (hstack : (pt.entry stackVpn).v = true) :
    ({ c with pagetable := pt } : Space).Ok :=
  { h with stack := hstack, region := h.region }

theorem Space.Ok.setRegion (h : c.Ok) {j : Nat} {r : MappedRegion} (hj : 4 ≤ j)
    (hjt : j ≤ c.totalMappedRegion) (hr : c.RegionOk r) :
    ({ c with
      mappedInfo := update c.mappedInfo j r
      totalMappedRegion := c.totalMappedRegion + 1 } : Space).Ok := by
  have hlow : ∀ i, i < 4 → update c.mappedInfo j r i = c.mappedInfo i := by
    intro i hi
    exact update_of_ne (by omega) _ _
  refine { h with
    heapRegion := ?_, named := fun i hi => ?_, four_le := ?_, beyond := fun i hi => ?_
    region := fun i hi => ?_ }
  · dsimp only
    rw [hlow 3 (by omega)]
    exact h.heapRegion
  · dsimp only
    rw [hlow i hi]
    exact h.named i hi
  · exact Nat.le_succ_of_le h.four_le
  · have hi' : c.totalMappedRegion + 1 ≤ i := hi
    dsimp only
    rw [update_of_ne (by omega)]
    exact h.beyond i (by omega)
  · dsimp only
    by_cases hij : i = j
    · rwa [hij, update_self]
    · rw [update_of_ne hij]
      exact h.region i hi

theorem Space.Ok.setHeap (h : c.Ok) {m : Nat → MappedRegion} {top : Nat} {fp : List Nat}
    (hstack : (pt.entry stackVpn).v = true) (hal : top % PGSIZE = 0)
    (hlo : c.heapBottom ≤ top) (hhi : top ≤ USER_STACK_TOP - PGSIZE)
    (hother : ∀ j, j ≠ 3 → m j = c.mappedInfo j)
    (hthree : m 3 = { c.mappedInfo 3 with npages := (top - c.heapBottom) / PGSIZE })
    (hout : ∀ j, j ≠ 3 → (c.mappedInfo j).npages = 1 →
      ¬ (c.heapBottom / PGSIZE ≤ (c.mappedInfo j).va / PGSIZE ∧
        (c.mappedInfo j).va / PGSIZE < top / PGSIZE))
    (hfp : ∀ va ∈ fp, va % PGSIZE = 0 ∧ c.heapBottom ≤ va ∧ va < top) :
    ({ c with pagetable := pt, mappedInfo := m, heapTop := top, freePages := fp } : Space).Ok := by
  have h4 := h.four_le
  refine ⟨h.bottom, hal, hlo, hhi, hstack, ?_, fun j hj => ?_, h4, fun j hj => ?_,
    fun j hj => ?_, hfp⟩
  · dsimp only
    rw [hthree]
    exact ⟨h.heapRegion.1, rfl⟩
  · dsimp only
    by_cases hj3 : j = 3
    · rw [hj3, hthree]
      exact h.named 3 (by omega)
    · rw [hother j hj3]
      exact h.named j hj
  · have hj' : c.totalMappedRegion ≤ j := hj
    dsimp only
    rw [hother j (by omega)]
    exact h.beyond j hj'
  · obtain ⟨hseg, hr⟩ := h.region j hj
    dsimp only
    rw [hother j hj]
    exact ⟨hseg, hr.imp id (fun ⟨hn, hal', hlt, _⟩ => ⟨hn, hal', hlt, hout j hj hn⟩)⟩

end

/-! ## Good tables -/

section

variable {s s' : Pmm T} {c c' : Space} {pt : PageTable}

theorem initSpace_grows {trapSec trapframe userStack : Nat}
    (h : initSpace s trapSec pt trapframe userStack = .ok (s', c)) : Grows s s' := by
  simp only [initSpace, bind_eq_ok] at h
  obtain ⟨⟨s1, pt1⟩, h1, ⟨s2, pt2⟩, h2, ⟨s3, pt3⟩, h3, h⟩ := h
  cases h
  exact ((userVmMap_grows h1).trans (userVmMap_grows h2)).trans (userVmMap_grows h3)

theorem loadSegment_good {ph : ElfProgHeader} (h : loadSegment s c ph = .ok (s', c'))
    (hg : Good s'.refs) : Good s.refs := by
  rcases loadSegment_inv h with ⟨-, rfl, -⟩ | ⟨-, dest, s1, pt1, segType, hal, rfl, -, -⟩
  · exact hg
  · obtain ⟨-, -, s2, ha, hmap⟩ := elfAllocMb_inv hal
    exact (allocPage_good ha (userVmMap_grows hmap hg).1).1

theorem elfLoad_good : ∀ (phs : List ElfProgHeader) (s : Pmm T) (c : Space),
    elfLoad s c phs = .ok (s', c') → Good s'.refs → Good s.refs := by
  intro phs
  induction phs with
  | nil =>
    intro s c h hg
    cases h
    exact hg
  | cons ph phs ih =>
    intro s c h hg
    simp only [elfLoad, bind_eq_ok] at h
    obtain ⟨⟨s1, c1⟩, h1, h⟩ := h
    exact loadSegment_good h1 (ih s1 c1 h hg)

end

/-! ## Mapping a page of one's own -/

section

variable {iso : Nat → Prop} {lo hi : Nat} {s s' : Pmm T} {ent : Entries} {i : Nat}
  {inHeap : Nat → Nat → Prop} {own : List Nat} {pt pt' : PageTable}

theorem Books.own_frame (h : Books iso lo hi s ent inHeap own) {f : Nat} (hf : f ∈ own) :
    Frame lo hi f ∧ f ≠ 0 := by
  obtain ⟨isHeap, free, hl⟩ := h
  have hfr := (hl.fresh f hf).1
  have hpos := hl.wf.start_pos
  rw [hl.start_eq] at hpos
  exact ⟨hfr, by unfold Frame at hfr; omega⟩

theorem Books.alloc_or_null (h : Books iso lo hi s ent inHeap own) {p : Nat}
    (ha : allocPage s = .ok (p, s')) (hg : Good s'.refs) :
    p ∉ own ∧ ∃ own', Books iso lo hi s' ent inHeap own' ∧ (p = 0 ∨ p ∈ own') ∧ own ⊆ own' := by
  by_cases hp : p = 0
  · refine ⟨fun hmem => (h.own_frame hmem).2 hp, own, h.grows (allocPage_grows ha) hg,
      .inl hp, fun _ hx => hx⟩
  · have hb := h.alloc ha hg hp
    obtain ⟨isHeap, free, hl⟩ := hb
    exact ⟨(nodup_cons.mp hl.nodup).1, p :: own, h.alloc ha hg hp, .inr (by simp),
      fun _ hx => by simp [hx]⟩

theorem leaf_pa {f : Nat} (perm : Perm) (h : f % PGSIZE = 0) : (Pte.leaf f perm).pa = f := by
  show ROUNDDOWN f PGSIZE = f
  unfold ROUNDDOWN PGSIZE at *
  omega

theorem leaf_not_cow {f : Nat} {perm : Perm} {P : Prop} (h : (Pte.leaf f perm).rsw = 1) : P := by
  cases h

theorem leaf_counted (f : Nat) {perm : Perm} (h : perm.w = true) :
    (Pte.leaf f perm).counted = true := by simp [Pte.leaf, Pte.counted, h]

theorem Books.map_own (h : Books iso lo hi s (withTable ent i pt) inHeap own) {va pa : Nat}
    {perm : Perm} (hmap : userVmMap s pt va PGSIZE pa perm = .ok (s', pt'))
    (hg : Good s'.refs) (hva : va % PGSIZE = 0) (hpa : pa = 0 ∨ pa ∈ own)
    (hw : perm.w = true) (hnull : pa = 0 → iso i → ¬ inHeap i (va / PGSIZE)) :
    Books iso lo hi s' (withTable ent i pt') inHeap (own.erase pa) := by
  obtain ⟨hdir, hlt, hent⟩ := userVmMap_entry hva hmap
  have hset := withTable_set ent i hent hdir (vpn_lt_dirSlot hlt)
  have hgrown := h.grows (userVmMap_grows hmap) hg
  rcases hpa with rfl | hown
  · have hz : (Pte.leaf 0 perm).pa = 0 := leaf_pa perm rfl
    have hout : ¬ Frame lo hi (Pte.leaf 0 perm).pa := by
      obtain ⟨isHeap, free', hl⟩ := h
      have hpos := hl.wf.start_pos
      rw [hl.start_eq] at hpos
      rw [hz]
      unfold Frame
      omega
    have hb := hgrown.set_outside hset hout (by rw [hz]; rfl) (fun _ => leaf_counted 0 hw)
      leaf_not_cow (fun hiso _ => hnull rfl hiso)
    have hnot : 0 ∉ own := fun hmem => (h.own_frame hmem).2 rfl
    rwa [erase_of_not_mem hnot]
  · have hf := (h.own_frame hown).1
    have hb := hgrown.set_own hset (by rwa [leaf_pa perm hf.1]) (leaf_counted pa hw) leaf_not_cow
    rwa [leaf_pa perm hf.1] at hb

theorem Books.map_kernel (h : Books iso lo hi s (withTable ent i pt) inHeap own) {pa : Nat}
    {perm : Perm} (hmap : userVmMap s pt pa PGSIZE pa perm = .ok (s', pt'))
    (hg : Good s'.refs) (hal : pa % PGSIZE = 0) (hlo : pa < lo)
    (hheap : ¬ inHeap i (pa / PGSIZE)) :
    Books iso lo hi s' (withTable ent i pt') inHeap own := by
  obtain ⟨hdir, hlt, hent⟩ := userVmMap_entry hal hmap
  have hset := withTable_set ent i hent hdir (vpn_lt_dirSlot hlt)
  refine (h.grows (userVmMap_grows hmap) hg).set_outside hset ?_ (by rwa [leaf_pa perm hal])
    (fun hin => absurd hin hheap) leaf_not_cow (fun _ _ => hheap)
  rw [leaf_pa perm hal]
  unfold Frame
  omega

/-! ## The initial regions -/

variable {c c' : Space} {trapSec trapframe userStack : Nat}

theorem not_inHeap_of_empty (h : c.heapTop = c.heapBottom) (v : Nat) : ¬ c.InHeap v := by
  rw [Space.InHeap, h]
  omega

theorem initSpace_ok (hk : KernelAt lo trapSec) (htf : trapframe % PGSIZE = 0 ∧ trapframe ≠ 0)
    (h : initSpace s trapSec pt trapframe userStack = .ok (s', c)) :
    c.Ok ∧ c.heapTop = c.heapBottom ∧ c.mappedInfo = initialRegions trapframe trapSec := by
  obtain ⟨s1, pt1, s2, pt2, pt3, h1, h2, h3, rfl⟩ := initSpace_inv h
  obtain ⟨-, -, he1⟩ := userVmMap_entry (by decide) h1
  obtain ⟨-, hlt2, he2⟩ := userVmMap_entry htf.1 h2
  obtain ⟨-, hlt3, he3⟩ := userVmMap_entry hk.aligned h3
  have hs : (pt3.entry stackVpn).v = true := by
    rw [he3, he2, he1]
    split
    · rfl
    · split
      · rfl
      · rw [if_pos (show stackVpn = (USER_STACK_TOP - PGSIZE) / PGSIZE from rfl)]
        rfl
  have hbase := hk.base_le
  have hstk : (USER_STACK_TOP - PGSIZE) % PGSIZE = 0 ∧ USER_STACK_TOP - PGSIZE < MAXVA ∧
      USER_STACK_TOP - PGSIZE ≠ 0 := by decide
  have hheap : USER_FREE_ADDRESS_START % PGSIZE = 0 ∧ USER_FREE_ADDRESS_START ≠ 0 ∧
      USER_FREE_ADDRESS_START ≤ USER_STACK_TOP - PGSIZE := by decide
  refine ⟨⟨rfl, hheap.1, le_rfl, hheap.2.2, hs, ⟨rfl, by simp [initialRegions]⟩, ?_,
    le_rfl, ?_, ?_, by simp⟩, rfl, rfl⟩
  · intro i hi
    match i, hi with
    | 0, _ => exact hstk.2.2
    | 1, _ => exact htf.2
    | 2, _ =>
      show trapSec ≠ 0
      unfold KERN_BASE at hbase
      omega
    | 3, _ => exact hheap.2.1
  · intro i hi
    match i, hi with
    | i + 4, _ => rfl
  · intro i hi
    match i, hi with
    | 0, _ =>
      exact ⟨by simp [initialRegions], .inr ⟨rfl, hstk.1, hstk.2.1, not_inHeap_of_empty rfl _⟩⟩
    | 1, _ => exact ⟨by simp [initialRegions], .inr ⟨rfl, htf.1, hlt2, not_inHeap_of_empty rfl _⟩⟩
    | 2, _ =>
      exact ⟨by simp [initialRegions], .inr ⟨rfl, hk.aligned, hlt3, not_inHeap_of_empty rfl _⟩⟩
    | i + 4, _ => exact ⟨by simp [initialRegions, MappedRegion.zero], .inl ⟨rfl, rfl⟩⟩

theorem Books.initSpace (h : Books iso lo hi s (withTable ent i pt) inHeap own)
    (hk : KernelAt lo trapSec) (hheap : ∀ v, inHeap i v → v < stackVpn)
    (hinit : initSpace s trapSec pt trapframe userStack = .ok (s', c)) (hg : Good s'.refs)
    (htf : trapframe ∈ own) (hstk : userStack = 0 ∨ userStack ∈ own)
    (hne : trapframe ≠ userStack) :
    Books iso lo hi s' (withTable ent i c.pagetable) inHeap [] := by
  have hfr := (h.own_frame htf).1
  obtain ⟨s1, pt1, s2, pt2, pt3, h1, h2, h3, rfl⟩ := initSpace_inv hinit
  have hg2 := (userVmMap_grows h3 hg).1
  have hg1 := (userVmMap_grows h2 hg2).1
  have hb1 := h.map_own h1 hg1 (by decide) hstk rfl (fun _ _ hin => lt_irrefl _ (hheap _ hin))
  have htf1 : trapframe ∈ own.erase userStack := (mem_erase_of_ne hne).mpr htf
  have hb2 := hb1.map_own h2 hg2 hfr.1 (.inr htf1) rfl (fun h0 => absurd h0 (h.own_frame htf).2)
  have hb3 := hb2.map_kernel h3 hg hk.aligned hk.lt_lo (fun hin => by
    have hlt := hheap _ hin
    have hbase := hk.base_le
    unfold stackVpn USER_STACK_TOP KERN_BASE PGSIZE at *
    omega)
  exact hb3.own_subset (by simp) (by simp)

/-! ## A new process -/

theorem withTable_empty {dir : Nat} (hslot : ∀ v, ent i v = Pte.zero) (q w : Nat) :
    withTable ent i (.empty dir) q w
      = if q = i ∧ w = dirSlot then ⟨dir, true, protToType true true false false, 0⟩
        else ent q w := by
  by_cases hq : q = i
  · subst hq
    by_cases hw : w = dirSlot
    · simp [withTable, entries, hw, empty]
    · simp [withTable, entries, hw, hslot, entry, empty]
  · simp [withTable, hq]

theorem Books.allocProcess (h : Books iso lo hi s ent inHeap []) (hk : KernelAt lo trapSec)
    (hslot : ∀ v, ent i v = Pte.zero) (hheap : ∀ v, inHeap i v → v < stackVpn)
    (hal : allocProcessSpace s trapSec = .ok (s', c)) (hg : Good s'.refs) :
    Books iso lo hi s' (withTable ent i c.pagetable) inHeap [] ∧ c.Ok ∧ c.heapTop = c.heapBottom ∧
      ∀ j, j ≠ 3 → (c.mappedInfo j).npages = 1 → stackVpn ≤ (c.mappedInfo j).va / PGSIZE := by
  obtain ⟨tf, s1, dir, s2, ks, s3, stk, s4, info, s5, s6, pf, h1, htf, h2, hdir, h3, h4, h5,
    hinfo, h6, h7⟩ := allocProcessSpace_inv hal
  have hg6 := (allocPage_good h7 hg).1
  have hg5 : Good s5.refs := (initSpace_grows h6 hg6).1
  have hg4 := (allocPage_good h5 hg5).1
  have hg3 := (allocPage_good h4 hg4).1
  have hg2 : Good s2.refs := (allocPage_good h3 hg3).1
  have hg1 : Good s1.refs := (allocPage_good h2 hg2).1
  -- the pages, in the order they are taken
  have hb1 := (h.alloc h1 hg1 htf).write_own (m := fillBytes s1.mem tf 0 trapframeSize)
    (.head ..) (fun x hx => fillBytes_outside (by
      unfold trapframeSize
      unfold PGSIZE at hx
      omega))
  have hb2 := (hb1.alloc h2 hg2 hdir).write_own (m := fillBytes s2.mem dir 0 PGSIZE)
    (.head ..) (fun x hx => fillBytes_outside hx)
  have hb3 := hb2.grows (allocPage_grows h3) hg3
  obtain ⟨hstkn, own4, hb4, hstk, hsub4⟩ := hb3.alloc_or_null h4 hg4
  have hb5 := (hb4.alloc h5 hg5 hinfo).write_own (m := fillBytes s5.mem info 0 PGSIZE)
    (.head ..) (fun x hx => fillBytes_outside hx)
  have htf5 : tf ∈ info :: own4 := .tail _ (hsub4 (by simp))
  have hdir5 : dir ∈ info :: own4 := .tail _ (hsub4 (by simp))
  have hstk5 : stk = 0 ∨ stk ∈ info :: own4 := hstk.imp id (mem_cons_of_mem _)
  have hne : tf ≠ stk := fun he => hstkn (by simp [← he])
  have hned : stk ≠ dir := fun he => hstkn (by simp [he])
  have htfd : tf ≠ dir := by
    obtain ⟨isHeap, free, hl⟩ := hb2
    have hnd := hl.nodup
    simp only [nodup_cons, mem_cons, not_mem_nil, or_false, not_false_eq_true,
      nodup_nil, and_true] at hnd
    exact fun he => hnd he.symm
  -- the directory, and then the initial regions
  have hb6 := hb5.set_own (withTable_empty hslot) hdir5 rfl (fun h => by cases h)
  have hb7 := hb6.initSpace hk hheap h6 hg6 ((mem_erase_of_ne htfd).mpr htf5)
    (hstk5.imp id (fun hm => (mem_erase_of_ne hned).mpr hm)) hne
  have htfr := (hb5.own_frame htf5).1
  obtain ⟨hok, hempty, hmi⟩ := initSpace_ok hk ⟨htfr.1, htf⟩ h6
  refine ⟨hb7.grows (allocPage_grows h7) hg, hok, hempty, fun j hj hn => ?_⟩
  have hbase := hk.base_le
  have hlo := hk.lt_lo
  have htlo := htfr.2.1
  rw [hmi] at hn ⊢
  match j, hj with
  | 0, _ => exact le_rfl
  | 1, _ =>
    show stackVpn ≤ tf / PGSIZE
    unfold stackVpn USER_STACK_TOP KERN_BASE PGSIZE at *
    omega
  | 2, _ =>
    show stackVpn ≤ trapSec / PGSIZE
    unfold stackVpn USER_STACK_TOP KERN_BASE PGSIZE at *
    omega
  | j + 4, _ => simp [initialRegions, MappedRegion.zero] at hn

/-! ## Loading a program -/

theorem recordRegion_inv {va : Nat} {segType : SegType} (hok : c.Ok)
    (h : recordRegion c va segType = .ok c') :
    ∃ j, 4 ≤ j ∧ j ≤ c.totalMappedRegion ∧ c' = { c with
      mappedInfo := update c.mappedInfo j ⟨va, 1, segType⟩
      totalMappedRegion := c.totalMappedRegion + 1 } := by
  unfold recordRegion at h
  split at h
  · cases h
  · rename_i j hj
    cases h
    rw [find?_range_eq_some] at hj
    obtain ⟨hz, -, hfirst⟩ := hj
    refine ⟨j, ?_, ?_, rfl⟩
    · by_contra hlt
      exact hok.named j (by omega) (by simpa using hz)
    · by_contra hgt
      have hne := hfirst c.totalMappedRegion (by omega)
      rw [hok.beyond _ le_rfl] at hne
      simp [MappedRegion.zero] at hne

theorem segTypeOf_ne_heap {flags : Nat} {t : SegType} (h : segTypeOf flags = some t) :
    t ≠ .heap := by
  unfold segTypeOf at h
  split at h
  · cases h
    simp
  · split at h
    · cases h
      simp
    · cases h

theorem Books.loadSegment {ph : ElfProgHeader}
    (h : Books iso lo hi s (withTable ent i c.pagetable) inHeap []) (hok : c.Ok)
    (hempty : c.heapTop = c.heapBottom) (hal : ph.isLoad = true → ph.vaddr % PGSIZE = 0)
    (hload : loadSegment s c ph = .ok (s', c')) (hg : Good s'.refs) :
    Books iso lo hi s' (withTable ent i c'.pagetable) inHeap [] ∧ c'.Ok ∧
      c'.heapTop = c'.heapBottom := by
  rcases loadSegment_inv hload with
    ⟨-, rfl, rfl⟩ | ⟨hl, dest, s1, pt1, segType, hmb, rfl, hseg, hrec⟩
  · exact ⟨h, hok, hempty⟩
  have hva := hal hl
  obtain ⟨hsize, hpa, s2, ha, hmap⟩ := elfAllocMb_inv hmb
  have hg2 : Good s2.refs := (userVmMap_grows hmap hg).1
  have hb2 := (h.alloc ha hg2 hpa).write_own (m := fillBytes s2.mem dest 0 PGSIZE)
    (.head ..) (fun x hx => fillBytes_outside hx)
  obtain ⟨hdir, hlt, hent⟩ := userVmMap_entry hva hmap
  have hfr := (hb2.own_frame (.head ..)).1
  have hb4 := hb2.map_own hmap hg hva (.inr (.head ..)) rfl (fun h0 => absurd h0 hpa)
  -- the segment's bytes go to the page just mapped
  have hentry : withTable ent i pt1 i (ph.vaddr / PGSIZE)
      = Pte.leaf dest (protToType true true true true) := by
    rw [withTable_self, entries_of_lt (vpn_lt_dirSlot hlt), hent, if_pos rfl]
  have hpad := leaf_pa (protToType true true true true) hfr.1
  have hb5 := hb4.write_entry (p := i) (v := ph.vaddr / PGSIZE)
    (m := copyBytes s1.mem dest ph.content 0 ph.memsz) (by rw [hentry]; rfl) (by
      rw [hentry, hpad]
      intro x hx
      exact copyBytes_outside (by omega))
  have hok1 := hok.setTable (by
    rw [hent]
    split
    · rfl
    · exact hok.stack)
  obtain ⟨j, hj, hjt, rfl⟩ := recordRegion_inv hok1 hrec
  refine ⟨hb5.own_subset (by simp) (by simp), ?_, hempty⟩
  exact hok1.setRegion hj hjt ⟨segTypeOf_ne_heap hseg, .inr ⟨rfl, hva, hlt,
    not_inHeap_of_empty hempty _⟩⟩

theorem Books.elfLoad :
    ∀ (phs : List ElfProgHeader) (s : Pmm T) (c : Space),
      Books iso lo hi s (withTable ent i c.pagetable) inHeap [] → c.Ok →
      c.heapTop = c.heapBottom →
      (∀ ph ∈ phs, ph.isLoad = true → ph.vaddr % PGSIZE = 0) →
      CabbagePKE.elfLoad s c phs = .ok (s', c') → Good s'.refs →
      Books iso lo hi s' (withTable ent i c'.pagetable) inHeap [] ∧ c'.Ok ∧
        c'.heapTop = c'.heapBottom := by
  intro phs
  induction phs with
  | nil =>
    intro s c h hok hempty _ hl _
    cases hl
    exact ⟨h, hok, hempty⟩
  | cons ph phs ih =>
    intro s c h hok hempty hal hl hg
    simp only [CabbagePKE.elfLoad, bind_eq_ok] at hl
    obtain ⟨⟨s1, c1⟩, h1, hl⟩ := hl
    have hg1 := elfLoad_good phs s1 c1 hl hg
    obtain ⟨hb1, hok1, hempty1⟩ := h.loadSegment hok hempty (hal ph (by simp)) h1 hg1
    exact ih s1 c1 hb1 hok1 hempty1 (fun ph' hp => hal ph' (by simp [hp])) hl hg

end

end CabbagePKE
