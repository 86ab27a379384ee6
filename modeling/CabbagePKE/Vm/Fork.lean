import CabbagePKE.Vm.Build

/-!
# Fork

`do_fork` gives the child its own stack and data pages, the parent's heap
frames as copy-on-write pages, each with a reference, and the parent's
code frames without one. All of it keeps the books.
-/

namespace CabbagePKE

open Lib Function
open GuardedTable (Good)

variable {T : Type} [GuardedTable T]

/-! ## Good tables -/

section

variable {s s' : Pmm T} {c c' parent : Space} {pt pt' : PageTable} {garbage : Nat → Bool}

theorem forkHeapFrom_good :
    ∀ (is : List Nat) (s : Pmm T) (pt : PageTable),
      forkHeapFrom parent garbage is s pt = .ok (s', pt') → Good s'.refs → Good s.refs := by
  intro is
  induction is with
  | nil =>
    intro s pt h hg
    cases h
    exact hg
  | cons i is ih =>
    intro s pt h hg
    simp only [forkHeapFrom] at h
    split at h
    · cases h
    · split at h
      · exact ih s pt h hg
      · simp only [bind_eq_ok] at h
        obtain ⟨⟨s1, pt1⟩, h1, h⟩ := h
        obtain ⟨s2, pt2, hw, hr, -⟩ := cowVmMap_inv h1
        exact (pageWalk_grows hw (addRef_good hr (ih s1 pt1 h hg))).1

theorem forkDataFrom_good {table : PageTable} :
    ∀ (n va : Nat) (s : Pmm T) (pt : PageTable),
      forkDataFrom table n va s pt = .ok (s', pt') → Good s'.refs → Good s.refs := by
  intro n
  induction n with
  | zero =>
    intro va s pt h hg
    cases h
    exact hg
  | succ n ih =>
    intro va s pt h hg
    simp only [forkDataFrom, bind_eq_ok] at h
    obtain ⟨⟨page, s1⟩, ha, s2, hcp, ⟨r, s3, pt3⟩, hmap, h⟩ := h
    obtain ⟨-, -, rfl⟩ := memcpy_eq hcp
    have hg3 := ih _ _ _ h hg
    have hg1 : Good s1.refs := (mapPages_grows hmap hg3).1
    exact (allocPage_good ha hg1).1

theorem forkRegion_good {r : MappedRegion} (h : forkRegion parent garbage s c r = .ok (s', c'))
    (hg : Good s'.refs) : Good s.refs := by
  rcases forkRegion_inv h with ⟨rfl, -, -⟩ | ⟨-, -, hcp⟩ | ⟨-, hh⟩ | ⟨-, pt, hmap, -⟩ |
    ⟨-, pt, hd, -⟩
  · exact hg
  · obtain ⟨-, -, rfl⟩ := memcpy_eq hcp
    exact hg
  · obtain ⟨pt, hh, -⟩ := forkHeap_inv hh
    exact forkHeapFrom_good _ _ _ hh hg
  · exact (userVmMap_grows hmap hg).1
  · exact forkDataFrom_good _ _ _ _ hd hg

theorem forkRegions_good :
    ∀ (rs : List MappedRegion) (s : Pmm T) (c : Space),
      forkRegions parent garbage rs s c = .ok (s', c') → Good s'.refs → Good s.refs := by
  intro rs
  induction rs with
  | nil =>
    intro s c h hg
    cases h
    exact hg
  | cons r rs ih =>
    intro s c h hg
    simp only [forkRegions, bind_eq_ok] at h
    obtain ⟨⟨s1, c1⟩, h1, h⟩ := h
    exact forkRegion_good h1 (ih s1 c1 h hg)

end

/-! ## The child under construction -/

/-- Process `p` with space `parent` forks into slot `i`; the child's heap
is drawn where the parent's is. Where the child's heap is to be isolated,
the parent can write none of its heap pages. -/
structure ForkAt (iso : Nat → Prop) (ent : Entries) (inHeap : Nat → Nat → Prop) (p i : Nat)
    (parent : Space) : Prop where
  ne : p ≠ i
  entries : ∀ v, ent p v = parent.pagetable.entries v
  parentHeap : ∀ v, inHeap p v ↔ parent.InHeap v
  childHeap : ∀ v, inHeap i v ↔ parent.InHeap v
  ok : parent.Ok
  family : iso i → iso p
  readOnly : iso i → ∀ v, parent.InHeap v → (parent.pagetable.entry v).v = true →
    (parent.pagetable.entry v).perm.w = false

/-- The child so far: well formed, its regions apart from the parent's
heap, its own heap none or the parent's. -/
structure ChildOf (parent c : Space) : Prop where
  ok : c.Ok
  apart : ∀ j, j ≠ 3 → (c.mappedInfo j).npages = 1 →
    ¬ parent.InHeap ((c.mappedInfo j).va / PGSIZE)
  sub : ∀ v, c.InHeap v → parent.InHeap v

section

variable {iso : Nat → Prop} {lo hi : Nat} {s s' : Pmm T} {ent : Entries} {p i : Nat}
  {inHeap : Nat → Nat → Prop} {pt pt' : PageTable} {parent c c' : Space}
  {garbage : Nat → Bool} {va : Nat}

theorem Space.Ok.inHeap_dirSlot (h : c.Ok) {v : Nat} (hv : c.InHeap v) : v < dirSlot := by
  have hlt := h.inHeap_lt hv
  have hle : stackVpn ≤ dirSlot := by decide
  omega

/-- A page that the parent maps, in the books of the fork. -/
theorem Books.parentPage (h : Books iso lo hi s (withTable ent i pt) inHeap [])
    (hf : ForkAt iso ent inHeap p i parent) (hlt : va < MAXVA)
    (hpa : lookupPa parent.pagetable va ≠ 0) :
    (withTable ent i pt p (va / PGSIZE)).v = true ∧
      (withTable ent i pt p (va / PGSIZE)).pa = lookupPa parent.pagetable va ∧
      lookupPa parent.pagetable va % PGSIZE = 0 := by
  obtain ⟨-, hv, hpa'⟩ := lookupPa_mapped hpa
  have hpent : withTable ent i pt p (va / PGSIZE) = parent.pagetable.entry (va / PGSIZE) := by
    rw [withTable_of_ne hf.ne, hf.entries, entries_of_lt (vpn_lt_dirSlot hlt)]
  obtain ⟨isHeap, free1, hl⟩ := h
  have hal := hl.paAligned p (va / PGSIZE)
  rw [hpent, ← hpa'] at hal
  rw [hpent]
  exact ⟨hv, hpa'.symm, hal hv⟩

theorem Books.cowVmMap (h : Books iso lo hi s (withTable ent i pt) inHeap [])
    (hf : ForkAt iso ent inHeap p i parent) (hin : parent.InHeap (va / PGSIZE))
    (hc : cowVmMap s pt va (lookupPa parent.pagetable va) = .ok (s', pt'))
    (hg : Good s'.refs) : Books iso lo hi s' (withTable ent i pt') inHeap [] := by
  obtain ⟨hlt, hdir, hent⟩ := cowVmMap_entry hc
  obtain ⟨s1, pt1, hw, href, -⟩ := cowVmMap_inv hc
  have hg1 := addRef_good href hg
  have hb := h.grows (pageWalk_grows hw) hg1
  have hset := withTable_set ent i hent hdir (vpn_lt_dirSlot hlt)
  have hheap := (hf.childHeap _).mpr hin
  by_cases hpa : lookupPa parent.pagetable va = 0
  · -- nothing to share: the child gets page `0`
    rw [hpa] at hset href
    obtain ⟨isHeap, free1, hl⟩ := hb
    have hpos := hl.wf.start_pos
    have hz : (0 : Nat) ∉ free1 := fun hm => hl.wf.pos hm rfl
    have hb' : Books iso lo hi s' (withTable ent i pt) inHeap [] :=
      ⟨isHeap, free1, hl.grew (addRef_grew hl.wf href hg hz).1⟩
    refine hb'.set_outside hset ?_ (by decide) (fun _ => by decide) (fun _ => hheap)
      (fun _ hw' => ?_)
    · rw [hl.start_eq] at hpos
      intro hfr
      have hle : lo ≤ 0 := hfr.2.1
      omega
    · exact absurd hw' (by decide)
  · obtain ⟨hv, hpa', hal⟩ := h.parentPage hf hlt hpa
    have hcow : (Pte.cow (lookupPa parent.pagetable va)).pa = lookupPa parent.pagetable va :=
      leaf_pa (protToType true false false true) hal
    refine hb.set_shared hset p (va / PGSIZE) hv (hcow.trans hpa'.symm)
      ((hf.parentHeap _).mpr hin) hheap rfl rfl ?_ (by rw [hcow]; exact href) hg
    intro hiso
    refine ⟨hf.family hiso, fun w hvw hinw => ?_⟩
    have hinw' := (hf.parentHeap w).mp hinw
    have hent' : withTable ent i pt p w = parent.pagetable.entry w := by
      rw [withTable_of_ne hf.ne, hf.entries, entries_of_lt (hf.ok.inHeap_dirSlot hinw')]
    rw [hent'] at hvw ⊢
    exact hf.readOnly hiso w hinw' hvw

theorem Books.forkHeapFrom (hf : ForkAt iso ent inHeap p i parent) :
    ∀ (is : List Nat) (s : Pmm T) (pt : PageTable),
      (∀ j ∈ is, parent.InHeap ((parent.heapBottom + j * PGSIZE) / PGSIZE)) →
      Books iso lo hi s (withTable ent i pt) inHeap [] →
      CabbagePKE.forkHeapFrom parent garbage is s pt = .ok (s', pt') → Good s'.refs →
      Books iso lo hi s' (withTable ent i pt') inHeap [] ∧
        ((pt.entry stackVpn).v = true → (pt'.entry stackVpn).v = true) := by
  intro is
  induction is with
  | nil =>
    intro s pt _ h hl _
    cases hl
    exact ⟨h, id⟩
  | cons j is ih =>
    intro s pt hin h hl hg
    simp only [CabbagePKE.forkHeapFrom] at hl
    have hin' : ∀ k ∈ is, parent.InHeap ((parent.heapBottom + k * PGSIZE) / PGSIZE) :=
      fun k hk => hin k (by simp [hk])
    split at hl
    · cases hl
    · split at hl
      · exact ih s pt hin' h hl hg
      · simp only [bind_eq_ok] at hl
        obtain ⟨⟨s1, pt1⟩, h1, hl⟩ := hl
        have hg1 := forkHeapFrom_good _ _ _ hl hg
        obtain ⟨-, -, hent⟩ := cowVmMap_entry h1
        have hb1 := h.cowVmMap hf (hin j (by simp)) h1 hg1
        obtain ⟨hb2, hstk⟩ := ih s1 pt1 hin' hb1 hl hg
        refine ⟨hb2, fun hv => hstk ?_⟩
        rw [hent]
        split
        · rfl
        · exact hv

theorem heapBlocks_inHeap (hok : parent.Ok) :
    ∀ j ∈ heapBlocks parent, parent.InHeap ((parent.heapBottom + j * PGSIZE) / PGSIZE) := by
  intro j hj
  have hlt := List.mem_range.mp hj
  have hb := hok.bottom
  have hal := hok.aligned
  have hle := hok.bottom_le
  unfold Space.InHeap
  rw [hb] at hlt hle ⊢
  unfold USER_FREE_ADDRESS_START PGSIZE at *
  omega

theorem Books.forkHeap (h : Books iso lo hi s (withTable ent i c.pagetable) inHeap [])
    (hf : ForkAt iso ent inHeap p i parent) (hch : ChildOf parent c)
    (hh : CabbagePKE.forkHeap s parent c garbage = .ok (s', c')) (hg : Good s'.refs) :
    Books iso lo hi s' (withTable ent i c'.pagetable) inHeap [] ∧ ChildOf parent c' ∧
      c'.heapTop = parent.heapTop ∧ c'.heapBottom = parent.heapBottom := by
  obtain ⟨pt, hloop, rfl⟩ := forkHeap_inv hh
  obtain ⟨hb, hstk⟩ := Books.forkHeapFrom hf _ _ _ (heapBlocks_inHeap hf.ok) h hloop hg
  have hok := hf.ok
  have hbot : parent.heapBottom = c.heapBottom := hok.bottom.trans hch.ok.bottom.symm
  have hnp := hok.heapRegion.2
  have hother : ∀ (j : Nat) (r : MappedRegion), j ≠ 3 →
      update c.mappedInfo 3 r j = c.mappedInfo j :=
    fun j r hj => update_of_ne hj _ _
  have hout : ∀ j, j ≠ 3 → (c.mappedInfo j).npages = 1 →
      ¬ (c.heapBottom / PGSIZE ≤ (c.mappedInfo j).va / PGSIZE ∧
        (c.mappedInfo j).va / PGSIZE < parent.heapTop / PGSIZE) := by
    intro j hj hn hin
    rw [← hbot] at hin
    exact hch.apart j hj hn hin
  refine ⟨hb, ⟨?_, fun j hj hn => ?_, fun v hv => hv⟩, rfl, rfl⟩
  · rw [hbot, hnp, hbot]
    refine hch.ok.setHeap (hstk hch.ok.stack) hok.aligned (hbot ▸ hok.bottom_le) hok.top_le
      (fun j hj => hother j _ hj) (update_self ..) hout ?_
    intro va hva
    have hfreed := hok.freed va hva
    rwa [hbot] at hfreed
  · change (update c.mappedInfo 3 _ j).npages = 1 at hn
    dsimp only
    rw [hother j _ hj] at hn ⊢
    exact hch.apart j hj hn

theorem ChildOf.addRegion (hch : ChildOf parent c) {r : MappedRegion}
    (hr : parent.RegionOk r) (hn : r.npages = 1) (hstk : (pt.entry stackVpn).v = true)
    {segType : SegType} (hseg : segType ≠ .heap)
    (h : CabbagePKE.addRegion { c with pagetable := pt } r.va r.npages segType = .ok c') :
    ChildOf parent c' ∧ c'.pagetable = pt ∧ c'.heapTop = c.heapTop ∧
      c'.heapBottom = c.heapBottom := by
  have hc' := addRegion_eq h
  subst hc'
  obtain ⟨-, ⟨h0, -⟩ | ⟨-, hal, hlt, hout⟩⟩ := hr
  · omega
  have h4 := hch.ok.four_le
  refine ⟨⟨(hch.ok.setTable hstk).setRegion h4 le_rfl ⟨hseg, .inr ⟨hn, hal, hlt,
    fun hin => hout (hch.sub _ hin)⟩⟩, fun j hj hn' => ?_, hch.sub⟩, rfl, rfl, rfl⟩
  change (update c.mappedInfo c.totalMappedRegion _ j).npages = 1 at hn'
  dsimp only
  by_cases hjt : j = c.totalMappedRegion
  · rwa [hjt, update_self]
  · rw [update_of_ne hjt] at hn' ⊢
    exact hch.apart j hj hn'

theorem Books.forkCode (h : Books iso lo hi s (withTable ent i pt) inHeap [])
    (hf : ForkAt iso ent inHeap p i parent) (hva : va % PGSIZE = 0)
    (hout : ¬ parent.InHeap (va / PGSIZE))
    (hmap : userVmMap s pt va PGSIZE (lookupPa parent.pagetable va)
      (protToType true false true true) = .ok (s', pt')) (hg : Good s'.refs) :
    Books iso lo hi s' (withTable ent i pt') inHeap [] ∧
      ((pt.entry stackVpn).v = true → (pt'.entry stackVpn).v = true) := by
  obtain ⟨hdir, hlt, hent⟩ := userVmMap_entry hva hmap
  have hset := withTable_set ent i hent hdir (vpn_lt_dirSlot hlt)
  have hb := h.grows (userVmMap_grows hmap) hg
  have hheap : ¬ inHeap i (va / PGSIZE) := fun hin => hout ((hf.childHeap _).mp hin)
  refine ⟨?_, fun hv => by
    rw [hent]
    split
    · rfl
    · exact hv⟩
  by_cases hpa : lookupPa parent.pagetable va = 0
  · rw [hpa] at hset
    obtain ⟨isHeap, free1, hl⟩ := hb
    have hpos := hl.wf.start_pos
    rw [hl.start_eq] at hpos
    refine Books.set_outside hset ⟨isHeap, free1, hl⟩ (fun hfr => ?_) (by decide)
      (fun hin => absurd hin hheap) leaf_not_cow (fun _ _ => hheap)
    have hle : lo ≤ 0 := hfr.2.1
    omega
  · obtain ⟨hv, hpa', hal⟩ := h.parentPage hf hlt hpa
    exact hb.set_plain hset p (va / PGSIZE) hv ((leaf_pa _ hal).trans hpa'.symm)
      (fun hin => hout ((hf.parentHeap _).mp hin)) hheap rfl hf.family

theorem Books.forkData {table : PageTable}
    (h : Books iso lo hi s (withTable ent i pt) inHeap []) (hva : va % PGSIZE = 0)
    (hd : forkDataFrom table 1 va s pt = .ok (s', pt')) (hg : Good s'.refs) :
    Books iso lo hi s' (withTable ent i pt') inHeap [] ∧
      ((pt.entry stackVpn).v = true → (pt'.entry stackVpn).v = true) := by
  simp only [forkDataFrom, bind_eq_ok] at hd
  obtain ⟨⟨page, s1⟩, ha, s2, hcp, ⟨r, s3, pt3⟩, hmap, hd⟩ := hd
  cases hd
  obtain ⟨hpage, -, rfl⟩ := memcpy_eq hcp
  have hg1 : Good s1.refs := (mapPages_grows hmap hg).1
  have hb1 := (h.alloc ha hg1 hpage).write_own
    (m := copyBytes s1.mem page s1.mem (lookupPa table va) PGSIZE)
    (.head ..) (fun x hx => copyBytes_outside hx)
  obtain ⟨hlt, hdir, hent⟩ := mapPages_page hva hmap
  have hb2 := hb1.grows (mapPages_grows hmap) hg
  have hfr := (hb1.own_frame (.head ..)).1
  rcases hent with ⟨-, -, hent⟩ | ⟨-, hent⟩
  · have hset := withTable_set ent i hent hdir (vpn_lt_dirSlot hlt)
    have hpa := leaf_pa (protToType true true false true) hfr.1
    have hb3 := hb2.set_own hset (by rw [hpa]; simp) (leaf_counted page rfl) leaf_not_cow
    refine ⟨hb3.own_subset (by simp) (by simp), fun hv => ?_⟩
    rw [hent]
    split
    · rfl
    · exact hv
  · rw [withTable_congr hent hdir]
    refine ⟨hb2.own_subset (by simp) (by simp), fun hv => ?_⟩
    rwa [hent]

theorem Books.forkRegion {r : MappedRegion}
    (h : Books iso lo hi s (withTable ent i c.pagetable) inHeap [])
    (hf : ForkAt iso ent inHeap p i parent) (hch : ChildOf parent c)
    (hr : r.segType = .heap ∨ parent.RegionOk r)
    (hs : CabbagePKE.forkRegion parent garbage s c r = .ok (s', c')) (hg : Good s'.refs) :
    Books iso lo hi s' (withTable ent i c'.pagetable) inHeap [] ∧ ChildOf parent c' ∧
      (r.segType = .heap ∨ c.heapTop = parent.heapTop ∧ c.heapBottom = parent.heapBottom →
        c'.heapTop = parent.heapTop ∧ c'.heapBottom = parent.heapBottom) := by
  rcases forkRegion_inv hs with ⟨rfl, rfl, hne⟩ | ⟨hseg, rfl, hcp⟩ | ⟨hseg, hh⟩ |
    ⟨hseg, pt, hmap, hreg⟩ | ⟨hseg, pt, hd, hreg⟩
  · exact ⟨h, hch, fun hc => hc.resolve_left hne⟩
  · obtain ⟨hdst, -, rfl⟩ := memcpy_eq hcp
    obtain ⟨hlt, hv, hpa⟩ := lookupPa_mapped hdst
    refine ⟨?_, hch, fun hc => hc.resolve_left (by rw [hseg]; simp)⟩
    have hent : withTable ent i c'.pagetable i ((c'.mappedInfo 0).va / PGSIZE)
        = c'.pagetable.entry ((c'.mappedInfo 0).va / PGSIZE) := by
      rw [withTable_self, entries_of_lt (vpn_lt_dirSlot hlt)]
    refine h.write_entry (p := i) (v := (c'.mappedInfo 0).va / PGSIZE) (by rw [hent]; exact hv)
      (fun x hx => ?_)
    rw [hent, ← hpa] at hx
    exact copyBytes_outside hx
  · obtain ⟨hb, hch', htop, hbot⟩ := h.forkHeap hf hch hh hg
    exact ⟨hb, hch', fun _ => ⟨htop, hbot⟩⟩
  · have hreg' := hr.resolve_left (by rw [hseg]; simp)
    have hreg'' := hreg'
    obtain ⟨-, ⟨-, hst⟩ | ⟨hn, hal, -, hout⟩⟩ := hreg''
    · simp [hseg] at hst
    rw [hn, Nat.one_mul] at hmap
    obtain ⟨hb, hstk⟩ := h.forkCode hf hal hout hmap hg
    obtain ⟨hch', rfl, htop, hbot⟩ := hch.addRegion hreg' hn (hstk hch.ok.stack) (by simp) hreg
    refine ⟨hb, hch', fun hc => ?_⟩
    rw [htop, hbot]
    exact hc.resolve_left (by rw [hseg]; simp)
  · have hreg' := hr.resolve_left (by rw [hseg]; simp)
    have hreg'' := hreg'
    obtain ⟨-, ⟨-, hst⟩ | ⟨hn, hal, -, hout⟩⟩ := hreg''
    · simp [hseg] at hst
    rw [hn] at hd
    obtain ⟨hb, hstk⟩ := h.forkData hal hd hg
    obtain ⟨hch', rfl, htop, hbot⟩ := hch.addRegion hreg' hn (hstk hch.ok.stack) (by simp) hreg
    refine ⟨hb, hch', fun hc => ?_⟩
    rw [htop, hbot]
    exact hc.resolve_left (by rw [hseg]; simp)

theorem Books.forkRegions (hf : ForkAt iso ent inHeap p i parent) :
    ∀ (rs : List MappedRegion) (s : Pmm T) (c : Space),
      (∀ r ∈ rs, r.segType = .heap ∨ parent.RegionOk r) →
      Books iso lo hi s (withTable ent i c.pagetable) inHeap [] → ChildOf parent c →
      CabbagePKE.forkRegions parent garbage rs s c = .ok (s', c') → Good s'.refs →
      Books iso lo hi s' (withTable ent i c'.pagetable) inHeap [] ∧ ChildOf parent c' ∧
        ((∃ r ∈ rs, r.segType = .heap) ∨
          c.heapTop = parent.heapTop ∧ c.heapBottom = parent.heapBottom →
          c'.heapTop = parent.heapTop ∧ c'.heapBottom = parent.heapBottom) := by
  intro rs
  induction rs with
  | nil =>
    intro s c _ h hch hl _
    cases hl
    exact ⟨h, hch, fun hc => hc.resolve_left (by simp)⟩
  | cons r rs ih =>
    intro s c hr h hch hl hg
    simp only [CabbagePKE.forkRegions, bind_eq_ok] at hl
    obtain ⟨⟨s1, c1⟩, h1, hl⟩ := hl
    have hg1 := forkRegions_good rs s1 c1 hl hg
    obtain ⟨hb1, hch1, hheap1⟩ := h.forkRegion hf hch (hr r (by simp)) h1 hg1
    obtain ⟨hb2, hch2, hheap2⟩ := ih s1 c1 (fun r' hr' => hr r' (by simp [hr'])) hb1 hch1 hl hg
    refine ⟨hb2, hch2, fun hc => hheap2 ?_⟩
    rcases hc with ⟨r', hr', hseg⟩ | hsame
    · rcases List.mem_cons.mp hr' with rfl | hr'
      · exact .inr (hheap1 (.inl hseg))
      · exact .inl ⟨r', hr', hseg⟩
    · exact .inr (hheap1 (.inr hsame))

theorem regions_ok (hok : parent.Ok) :
    ∀ r ∈ parent.regions, r.segType = .heap ∨ parent.RegionOk r := by
  intro r hr
  obtain ⟨j, -, rfl⟩ := List.mem_map.mp hr
  by_cases hj : j = 3
  · subst hj
    exact .inl hok.heapRegion.1
  · exact .inr (hok.region j hj)

theorem regions_heap (hok : parent.Ok) : ∃ r ∈ parent.regions, r.segType = .heap := by
  have h4 := hok.four_le
  refine ⟨parent.mappedInfo 3, List.mem_map.mpr ⟨3, List.mem_range.mpr (by omega), rfl⟩,
    hok.heapRegion.1⟩

theorem Books.doFork {trapSec : Nat} (h : Books iso lo hi s ent inHeap [])
    (hk : KernelAt lo trapSec) (hf : ForkAt iso ent inHeap p i parent)
    (hslot : ∀ v, ent i v = Pte.zero)
    (hd : doForkSpace s trapSec parent garbage = .ok (s', c)) (hg : Good s'.refs) :
    Books iso lo hi s' (withTable ent i c.pagetable) inHeap [] ∧ c.Ok ∧
      ∀ v, inHeap i v ↔ c.InHeap v := by
  simp only [doForkSpace, bind_eq_ok] at hd
  obtain ⟨⟨s1, c1⟩, h1, hd⟩ := hd
  have hg1 := forkRegions_good _ _ _ hd hg
  have hlow : ∀ v, inHeap i v → v < stackVpn := fun v hv => hf.ok.inHeap_lt ((hf.childHeap v).mp hv)
  obtain ⟨hb1, hok1, hempty, hhigh⟩ := h.allocProcess hk hslot hlow h1 hg1
  have hch1 : ChildOf parent c1 := by
    refine ⟨hok1, fun j hj hn hin => ?_, fun v hv => absurd hv (not_inHeap_of_empty hempty v)⟩
    have hlt := hf.ok.inHeap_lt hin
    have hge := hhigh j hj hn
    omega
  obtain ⟨hb2, hch2, hheap⟩ := Books.forkRegions hf _ _ _ (regions_ok hf.ok) hb1 hch1 hd hg
  obtain ⟨htop, hbot⟩ := hheap (.inl (regions_heap hf.ok))
  refine ⟨hb2, hch2.ok, fun v => ?_⟩
  rw [hf.childHeap]
  unfold Space.InHeap
  rw [htop, hbot]

end

end CabbagePKE
