import CabbagePKE.Vm.Plain

/-!
# Store faults on shared pages

After `do_fork` a page of the child's heap is mapped read-only, with the
copy-on-write mark, to the frame of the parent. On a store
`handle_user_page_fault` tests the address against the stack pointer first, and
then drops the old frame and takes a new one without copying anything. If the
reference was the last one, it takes the frame it has just given back.
-/

namespace CabbagePKE

open Lib Function

/-- The page of `va` is mapped read-only, with the copy-on-write mark, to the
frame `f`. -/
structure Space.CowPage (c : Space) (va f : Nat) : Prop where
  lt : va < MAXVA
  valid : (c.pagetable.entry (va / PGSIZE)).v = true
  readOnly : (c.pagetable.entry (va / PGSIZE)).perm.w = false
  mark : (c.pagetable.entry (va / PGSIZE)).rsw = 1
  frame : (c.pagetable.entry (va / PGSIZE)).pa = f

/-- What a copy-on-write fault of process `p` at `va` should do to a page on
frame `f`: the process can store to its page, which has the bytes that `f` had,
the frame lost one reference, and what others have of it is as before. -/
structure CowResolved (s s' : VmSys RefList) (p va f : Nat) : Prop where
  mapped : ∃ c', s'.procs p = some c' ∧ (c'.translate va).storable = true ∧
    ∀ i, i < PGSIZE → s'.pmm.mem ((c'.translate va).pa + i) = s.pmm.mem (f + i)
  dropped : refCount s'.pmm.refs f + 1 = refCount s.pmm.refs f
  contents : 1 ≤ refCount s'.pmm.refs f →
    ∀ i, i < PGSIZE → s'.pmm.mem (f + i) = s.pmm.mem (f + i)
  others : ∀ q, q ≠ p → s'.procs q = s.procs q

/-! ## Counts -/

section

variable {l l' : RefList} {pa q : Nat}

theorem refInsert_other (h : refInsert l pa = .ok l') (hq : q ≠ pa) :
    refCount l' q = refCount l q := by
  unfold refInsert at h
  split at h
  · rename_i l1 hf
    cases h
    simp only [refFind, Option.map_eq_some_iff] at hf
    obtain ⟨i, hi, rfl⟩ := hf
    obtain ⟨hlt, hpa⟩ := refSearch_some hi
    have hget : l.getD i ⟨0, 0⟩ = l[i] := by simp [hlt]
    have hset : ∀ x, l.set i x = l.take i ++ x :: l.drop (i + 1) :=
      fun x => List.set_eq_take_append_cons_drop.trans (if_pos hlt)
    have hne : ¬ l[i].pa = q := fun heq => hq (heq.symm.trans hpa)
    rw [hget, hset]
    conv_rhs => rw [RefList.split_at hlt]
    simp only [refCount_append, refCount_cons, if_neg hne]
  · split at h
    · cases h
      generalize firstGe (refKey l) pa l.length 0 l.length 0 = idx
      conv_rhs => rw [← List.take_append_drop idx l]
      simp only [refCount_append, refCount_cons, if_neg (Ne.symm hq)]
      omega
    · cases h

theorem refInsert_new (h : refInsert l pa = .ok l') (hnew : ∀ e ∈ l, e.pa ≠ pa) :
    refCount l' pa = 1 := by
  have hnone : refFind l pa = none := by
    cases hf : refFind l pa with
    | none => rfl
    | some l1 =>
      simp only [refFind, Option.map_eq_some_iff] at hf
      obtain ⟨i, hi, -⟩ := hf
      obtain ⟨hlt, hpa⟩ := refSearch_some hi
      exact absurd hpa (hnew _ (List.getElem_mem hlt))
  have hzero := refCount_eq_zero hnew
  unfold refInsert at h
  rw [hnone] at h
  dsimp only at h
  split at h
  · cases h
    generalize firstGe (refKey l) pa l.length 0 l.length 0 = idx
    rw [← List.take_append_drop idx l, refCount_append] at hzero
    simp only [refCount_append, refCount_cons, if_true]
    omega
  · cases h

theorem refCount_pos {e : RefUnit} (hw : l.Wf) (he : e ∈ l) : 1 ≤ refCount l e.pa := by
  have hc := (hw.counts e he).1
  obtain ⟨l1, l2, rfl⟩ := List.append_of_mem he
  rw [refCount_append, refCount_cons, if_pos rfl]
  omega

end

/-! ## The handler -/

section

variable {s s' : Pmm RefList} {c : Space} {va f : Nat} {free : List Nat}

theorem allocPage_other {p q : Nat} (h : allocPage s = .ok (p, s')) (hq : q ≠ p) :
    refCount s'.refs q = refCount s.refs q := by
  simp only [allocPage, bind_eq_ok] at h
  obtain ⟨refs, hins, h⟩ := h
  cases h
  exact refInsert_other hins hq

theorem pageWalk_existing {T : Type} [RefTable T] {s : Pmm T} {pt : PageTable}
    (hlt : va < MAXVA) (hw : pt.walks (va / PGSIZE) = true) :
    ∃ pt', pageWalk s pt va = .ok (true, s, pt') := by
  simp only [PageTable.walks, Bool.and_eq_true] at hw
  obtain ⟨m, hm⟩ := Option.isSome_iff_exists.mp hw.1
  obtain ⟨l, hl⟩ := Option.isSome_iff_exists.mp hw.2
  have hleaf : (pt.addMid (va / PGSIZE / 512 / 512) m).leaf (va / PGSIZE / 512) = some l := by
    simp [PageTable.addMid, hm, hl]
  rw [pageWalk, if_neg (not_le.mpr hlt)]
  simp only [hm, walkLevel, ok_bind, hleaf]
  exact ⟨_, rfl⟩

theorem stackStore_count {pa : Nat} {s1 : Pmm RefList} {pt1 : PageTable} (hl : s.Listed free)
    (hf : f ∉ free) (hp : c.CowPage va f) (ha : allocPage s = .ok (pa, s1)) (hpa : pa ≠ 0)
    (hwalk : pageWalk s1 c.pagetable va = .ok (true, s', pt1)) :
    refCount s'.refs f = refCount s.refs f := by
  obtain ⟨pt', hwalk'⟩ := pageWalk_existing (s := s1) hp.lt (walks_of_valid hp.valid)
  cases hwalk'.symm.trans hwalk
  refine allocPage_other ha ?_
  rintro rfl
  obtain ⟨-, -, hfrom, -⟩ := allocPage_fresh hl ha
  exact hf (hfrom.resolve_left hpa)

theorem lastReference_count {pa : Nat} {s1 : Pmm RefList} (hw : s.refs.Wf)
    (hone : refCount s.refs f = 1) (hfree : freePage s f = .ok s1)
    (ha : allocPage s1 = .ok (pa, s')) : pa = f ∧ refCount s'.refs f = 1 := by
  obtain ⟨hw1, hcount, hlast⟩ := refErase_spec hw f
  have hreturn : ¬ (refErase s.refs f).1 = 0 := by
    rw [hlast, hone]
    omega
  have hs1 : s1 = { s with
      refs := (refErase s.refs f).2
      mem := writeLE s.mem f 8 s.gFreeMemList
      gFreeMemList := f } := by
    unfold freePage at hfree
    split at hfree
    · cases hfree
    · have hreturn' : ¬ (RefTable.erase s.refs f).1 = 0 := hreturn
      rw [if_neg hreturn'] at hfree
      cases hfree
      rfl
  have hnew : ∀ e ∈ (refErase s.refs f).2, e.pa ≠ f := by
    intro e he heq
    have hpos := refCount_pos hw1 he
    rw [heq, hcount f, if_pos rfl, hone] at hpos
    omega
  rw [hs1] at ha
  simp only [allocPage, bind_eq_ok] at ha
  obtain ⟨refs, hins, ha⟩ := ha
  cases ha
  exact ⟨rfl, refInsert_new hins hnew⟩

theorem sharedReference_count {pa : Nat} {s1 : Pmm RefList} (hw : s.Wf free)
    (hmany : 2 ≤ refCount s.refs f) (hfree : freePage s f = .ok s1)
    (ha : allocPage s1 = .ok (pa, s')) (hpa : pa ≠ 0) :
    pa ∈ free ∧ pa = free.headD 0 ∧ s'.mem = s.mem ∧
      refCount s'.refs f + 1 = refCount s.refs f := by
  obtain ⟨-, hcount, hlast⟩ := refErase_spec hw.refs f
  have hreturn : (refErase s.refs f).1 = 0 := hlast.mpr (by omega)
  have hs1 : s1 = { s with refs := (refErase s.refs f).2 } := by
    unfold freePage at hfree
    split at hfree
    · cases hfree
    · have hreturn' : (RefTable.erase s.refs f).1 = 0 := hreturn
      rw [if_pos hreturn'] at hfree
      cases hfree
      rfl
  have hl1 : s1.Listed free := by
    rw [hs1]
    exact ⟨hw.start_pos, hw.end_lt, hw.chain, hw.head_lt, hw.managed⟩
  have hnot : f ∉ free := by
    intro hmem
    have hzero : refCount s.refs f = 0 := hw.unreferenced f hmem
    omega
  obtain ⟨hmem, -, -, ⟨h0, -⟩ | ⟨rest, -, hcons, -⟩⟩ := allocPage_inv hl1 ha
  · exact absurd h0 hpa
  have hin : pa ∈ free := by
    rw [hcons]
    simp
  have hne : f ≠ pa := fun heq => hnot (heq ▸ hin)
  refine ⟨hin, by rw [hcons]; rfl, ?_, ?_⟩
  · rw [hmem, hs1]
  · rw [allocPage_other ha hne, hs1]
    rw [hcount f, if_pos rfl]
    omega

end

/-! ## The fault -/

/-- A store to a copy-on-write page on frame `f` is resolved properly exactly if
the address is not taken for one of the stack, the frame has another reference,
and the first free page happens to have the same bytes. -/
theorem cow_fault_resolved_iff {s s' : VmSys RefList} {p sp va f : Nat} {b : UInt8} {c : Space}
    {free : List Nat} (hw : s.pmm.Wf free) (hc : s.procs p = some c) (hp : c.CowPage va f)
    (hcount : 1 ≤ refCount s.pmm.refs f) (hs : s.step (.store p sp va b) = .ok s') :
    CowResolved s s' p va f ↔ ¬ stackFault sp va ∧ 2 ≤ refCount s.pmm.refs f ∧
      ∀ i, i < PGSIZE → s.pmm.mem (free.headD 0 + i) = s.pmm.mem (f + i) := by
  have hnot : f ∉ free := by
    intro hmem
    have hzero : refCount s.pmm.refs f = 0 := hw.unreferenced f hmem
    omega
  have hstore : (c.translate va).storable = false := by
    rw [Space.translate, if_pos hp.lt, Pte.storable, hp.readOnly]
    simp
  obtain ⟨c₀, pmm, c', hc₀, hu, rfl⟩ := VmSys.onSpace_inv hs
  cases hc₀.symm.trans hc
  rcases userStore_inv hu with ⟨hst, -⟩ | ⟨-, hsp, pa, s₁, pt₁, ha, hpa, hwalk, -⟩ |
    ⟨-, hsp, hlt, hwalks, -, s₁, pa, hfree, ha, hpa, hc'⟩
  · simp [hst] at hstore
  · -- the address counts as one of the stack: the frame keeps its references
    have hkept := stackStore_count hw.toListed hnot hp ha hpa hwalk
    constructor
    · intro hr
      have hdrop : refCount pmm.refs f + 1 = refCount s.pmm.refs f := hr.dropped
      omega
    · intro hcond
      exact absurd hsp hcond.1
  · rw [hp.frame] at hfree
    by_cases hmany : 2 ≤ refCount s.pmm.refs f
    · obtain ⟨hin, hhead, hmem, hdrop⟩ := sharedReference_count hw hmany hfree ha hpa
      have haligned := (hw.managed pa hin).1
      have htrans : c'.translate va = Pte.leaf pa (protToType true true false true) := by
        rw [Space.translate, if_pos hlt, hc']
        rw [entry_set _ hwalks, if_pos rfl]
      have hpa' : (c'.translate va).pa = pa := by
        rw [htrans]
        exact leaf_pa_of_aligned _ haligned
      have hself : (s.put pmm p c').procs p = some c' := by simp [VmSys.put]
      constructor
      · intro hr
        refine ⟨hsp, hmany, fun i hi => ?_⟩
        obtain ⟨c'', hc'', -, hbytes⟩ := hr.mapped
        cases hself.symm.trans hc''
        have hi' : pmm.mem ((c'.translate va).pa + i) = s.pmm.mem (f + i) := hbytes i hi
        rwa [hpa', hmem, hhead] at hi'
      · rintro ⟨-, -, hbytes⟩
        refine ⟨⟨c', hself, ?_, fun i hi => ?_⟩, hdrop, fun _ i hi => ?_, fun q hq => ?_⟩
        · rw [htrans]
          rfl
        · show pmm.mem ((c'.translate va).pa + i) = s.pmm.mem (f + i)
          rw [hpa', hmem, hhead]
          exact hbytes i hi
        · show pmm.mem (f + i) = s.pmm.mem (f + i)
          rw [hmem]
        · simp [VmSys.put, update_of_ne hq]
    · -- the last reference: the frame comes back
      have hone : refCount s.pmm.refs f = 1 := by omega
      obtain ⟨-, hback⟩ := lastReference_count hw.refs hone hfree ha
      constructor
      · intro hr
        have hdrop : refCount pmm.refs f + 1 = refCount s.pmm.refs f := hr.dropped
        omega
      · intro hcond
        exact absurd hcond.2.1 hmany

/-! ## Two faults -/

instance RefList.Wf.decidable (l : RefList) : Decidable l.Wf :=
  decidable_of_iff (l.Pairwise (fun e e' => e.pa < e'.pa) ∧
      ∀ e ∈ l, 1 ≤ e.ref ∧ e.ref < 2 ^ 64)
    ⟨fun h => ⟨h.1, h.2⟩, fun h => ⟨h.sorted, h.counts⟩⟩

instance Pmm.Wf.decidable (s : Pmm RefList) (free : List Nat) : Decidable (s.Wf free) :=
  decidable_of_iff (s.Listed free ∧ RefList.Wf s.refs ∧ ∀ p ∈ free, refCount s.refs p = 0)
    ⟨fun h => ⟨h.1, h.2.1, h.2.2⟩, fun h => ⟨h.toListed, h.refs, h.unreferenced⟩⟩

instance Space.CowPage.decidable (c : Space) (va f : Nat) : Decidable (c.CowPage va f) :=
  decidable_of_iff (va < MAXVA ∧ (c.pagetable.entry (va / PGSIZE)).v = true ∧
      (c.pagetable.entry (va / PGSIZE)).perm.w = false ∧
      (c.pagetable.entry (va / PGSIZE)).rsw = 1 ∧ (c.pagetable.entry (va / PGSIZE)).pa = f)
    ⟨fun h => ⟨h.1, h.2.1, h.2.2.1, h.2.2.2.1, h.2.2.2.2⟩,
      fun h => ⟨h.lt, h.valid, h.readOnly, h.mark, h.frame⟩⟩

/-- A process with one copy-on-write page on the frame `0x80020000`, in a memory
of zeros with one free page. -/
def clearSystem : VmSys RefList :=
  { pmm := { mem := fun _ => 0, gFreeMemList := 0x80010000, refs := [⟨0x80020000, 2⟩],
             freeMemStartAddr := 0x80006000, freeMemEndAddr := 0x80040000 }
    trapSec := 0x80001000
    procs := fun p => if p = 1 then
      some { pagetable := (((PageTable.empty 0x80030000).addMid 0 0x80031000).addLeaf 2
               0x80032000).set 0x400 (Pte.cow 0x80020000)
             trapframe := 0x80033000
             mappedInfo := initialRegions 0x80033000 0x80001000
             totalMappedRegion := 4
             heapTop := 0x401000
             heapBottom := 0x400000
             freePages := [] }
      else none }

/-- A fault on a clear page with a clear page left: the process gets an equal
page. -/
theorem cow_fault_resolved_iff_clear : ∃ s' : VmSys RefList,
    clearSystem.step (.store 1 0x7ffff000 0x400010 1) = .ok s' ∧
      CowResolved clearSystem s' 1 0x400010 0x80020000 := by
  have hw : clearSystem.pmm.Wf [0x80010000] := by decide +kernel
  obtain ⟨c, hc, hp⟩ : ∃ c, clearSystem.procs 1 = some c ∧ c.CowPage 0x400010 0x80020000 := by
    decide +kernel
  obtain ⟨s', hs⟩ : ∃ s', clearSystem.step (.store 1 0x7ffff000 0x400010 1) = .ok s' := by
    decide +kernel
  exact ⟨s', hs, (cow_fault_resolved_iff hw hc hp (by decide) hs).mpr
    ⟨by decide, by decide, fun i _ => rfl⟩⟩

/-- The parent stored 7 to its heap page and forked: the fault of the child gives
it a page without the 7. -/
theorem cow_fault_loses_bytes : ∃ (s₀ s s' : VmSys RefList) (c c' : Space) (f : Nat),
    vmBoot 0x80006000 (64 * PGSIZE) (fun _ => 0) [] 0x80001000 = .ok s₀ ∧
      Reaches VmSys.step (fun _ _ => True) s₀ s ∧ s.pmm.Wf (s.pmm.freeList 64) ∧
      s.procs 1 = some c ∧ c.CowPage 0x400010 f ∧ refCount s.pmm.refs f = 2 ∧
      s.step (.store 1 0x7ffff000 0x400010 1) = .ok s' ∧ s'.procs 1 = some c' ∧
      userLoad s.pmm c 0x400010 = some 7 ∧ userLoad s'.pmm c' 0x400010 = some 0 ∧
      ¬ CowResolved s s' 1 0x400010 f := by
  obtain ⟨s₀, hboot, s, hrun, hw, c, hc, hp, hcount, hold, hload, s', hs, c', hc', hload', hbyte⟩ :
      ∃ s₀, vmSmall ([] : RefList) = .ok s₀ ∧ ∃ s, Runs VmSys.step (fun _ _ => True) s₀
        [.load [segmentAt 0x10000 5], .allocatePage 0, .store 0 0x7ffff000 0x400010 7,
          .fork 0 (fun _ => false)] s ∧ s.pmm.Wf (s.pmm.freeList 64) ∧
      ∃ c, s.procs 1 = some c ∧ c.CowPage 0x400010 (c.pagetable.entry 0x400).pa ∧
        refCount s.pmm.refs (c.pagetable.entry 0x400).pa = 2 ∧
        s.pmm.mem ((c.pagetable.entry 0x400).pa + 0x10) = 7 ∧
        userLoad s.pmm c 0x400010 = some 7 ∧
      ∃ s', s.step (.store 1 0x7ffff000 0x400010 1) = .ok s' ∧
      ∃ c', s'.procs 1 = some c' ∧ userLoad s'.pmm c' 0x400010 = some 0 ∧
        s'.pmm.mem ((c'.translate 0x400010).pa + 0x10) = 0 := by decide +kernel
  refine ⟨s₀, s, s', c, c', _, hboot, hrun.reaches .start, hw, hc, hp, hcount, hs, hc', hload,
    hload', ?_⟩
  intro hr
  obtain ⟨c'', hc'', -, hbytes⟩ := hr.mapped
  cases hc'.symm.trans hc''
  have hsame := hbytes 0x10 (by decide)
  simp [hbyte, hold] at hsame

end CabbagePKE
