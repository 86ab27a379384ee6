import CabbagePKE.Heap.Pages
import CabbagePKE.Pmm.DoubleFree

/-!
# Freeing what is not a page of the heap

`user_vm_unmap` frees the frame that the entry of the address names, and clears
only the valid bit; `sys_user_free_page` does not ask whether the address is a
page of the heap, or mapped. So the frame of a reclaimed page goes to `free_page`
once more, and so do the frames of the stack and of the program.
-/

namespace CabbagePKE

open Lib

variable {T : Type} [RefTable T]

def Space.LivePage (c : Space) (va : Nat) : Prop :=
  c.HeapPage va ∧ (c.pagetable.entry (va / PGSIZE)).v = true

/-- The frame that the entry of `va` names, whether the entry is valid or not. -/
def Space.frame (c : Space) (va : Nat) : Nat := (c.pagetable.entry (va / PGSIZE)).pa

def Releases (s : Pmm T) (c : Space) (va : Nat) : Prop := va < MAXVA ∧ s.LastRef (c.frame va)

/-- `sys_user_free_page(va)` leaves the free list as it is, or does not return from
`user_vm_unmap`, the only place where it touches the allocator. -/
def KeepsFreeList (s : Pmm T) (c : Space) (va : Nat) (free : List Nat) : Prop :=
  ∀ s' pt, userVmUnmap s c.pagetable va = .ok (s', pt) → s'.Listed free

/-- `sys_user_free_page(va)` leaves a free list that has no page twice. -/
def KeepsListSound (s : Pmm T) (c : Space) (va : Nat) : Prop :=
  ∀ s' pt, userVmUnmap s c.pagetable va = .ok (s', pt) → ∃ free, s'.Listed free ∧ free.Nodup

section

variable {s : Pmm T} {c : Space} {va : Nat} {free : List Nat}

theorem userVmUnmap_of_releases (hl : s.Listed free) (h : Releases s c va) :
    ∃ s' pt, userVmUnmap s c.pagetable va = .ok (s', pt) ∧ freePage s (c.frame va) = .ok s' := by
  have hfree := freePage_of_lastRef h.2
  have hpos := hl.start_pos
  have hlo := h.2.1.2.1
  have hwalks : c.pagetable.walks (va / PGSIZE) = true := by
    by_contra hno
    have hzero : c.frame va = 0 := by
      unfold Space.frame PageTable.entry
      rw [if_neg]
      · rfl
      · simpa [PageTable.walks] using hno
    omega
  have hent : (c.pagetable.pte (va / PGSIZE)).pa = c.frame va := by
    rw [Space.frame, entry_of_walks hwalks]
  refine ⟨s.pushed (c.frame va), c.pagetable.invalidate (va / PGSIZE), ?_, hfree⟩
  rw [userVmUnmap, if_neg (not_le.mpr h.1), hwalks, Bool.not_true, if_neg (by simp), hent, hfree,
    ok_bind, pure_eq_ok]

theorem keepsFreeList_iff (hl : s.Listed free) : KeepsFreeList s c va free ↔ ¬ Releases s c va := by
  constructor
  · intro hk hr
    obtain ⟨s', pt, hunmap, hfree⟩ := userVmUnmap_of_releases hl hr
    exact (freePage_kept_iff hl hfree).mp (hk s' pt hunmap) hr.2
  · intro hr s' pt hunmap
    obtain ⟨hlt, -, hfree, -⟩ := userVmUnmap_inv hunmap
    exact (freePage_kept_iff hl hfree).mpr (fun hlast => hr ⟨hlt, hlast⟩)

theorem keepsListSound_iff (hl : s.Listed free) :
    KeepsListSound s c va ↔ (Releases s c va → c.frame va ∉ free) := by
  constructor
  · intro hk hr
    obtain ⟨s', pt, hunmap, hfree⟩ := userVmUnmap_of_releases hl hr
    obtain ⟨free', hl', -⟩ := hk s' pt hunmap
    exact (freePage_sound_iff hl hfree).mp ⟨free', hl'⟩ hr.2
  · intro hnew s' pt hunmap
    obtain ⟨hlt, -, hfree, -⟩ := userVmUnmap_inv hunmap
    obtain ⟨free', hl'⟩ := (freePage_sound_iff hl hfree).mpr (fun hlast => hnew ⟨hlt, hlast⟩)
    exact ⟨free', hl', hl'.chain.nodup⟩

/-- **Freeing an address that is not a live page.** In every state with a free
list: the list stays as it is exactly if the entry of the address does not name a
managed frame on its last reference; and it stays a list exactly if it does not
name such a frame that is free already. -/
theorem misfree_harmless_iff (hl : s.Listed free) :
    ((¬ c.LivePage va → KeepsFreeList s c va free) ↔ (Releases s c va → c.LivePage va)) ∧
      ((¬ c.LivePage va → KeepsListSound s c va) ↔
        (Releases s c va → c.frame va ∈ free → c.LivePage va)) := by
  rw [keepsFreeList_iff hl, keepsListSound_iff hl]
  constructor
  · exact ⟨fun h hr => by_contra fun hlive => h hlive hr, fun h hlive hr => hlive (h hr)⟩
  · exact ⟨fun h hr hmem => by_contra fun hlive => h hlive hr hmem,
      fun h hlive hr hmem => hlive (h hr hmem)⟩

end

/-! ## A page freed twice -/

instance Space.LivePage.decidable (c : Space) (va : Nat) : Decidable (c.LivePage va) :=
  decidable_of_iff ((c.heapBottom ≤ va ∧ va < c.heapTop ∧ va % PGSIZE = 0) ∧
    (c.pagetable.entry (va / PGSIZE)).v = true) Iff.rfl

instance Releases.decidable (s : Pmm T) (c : Space) (va : Nat) : Decidable (Releases s c va) :=
  inferInstanceAs (Decidable (_ ∧ _))

/-- The first process loads its program, takes a page of the heap and gives it back. -/
def pageReturned : List VmOp :=
  [.load [segmentAt 0x10000 5], .allocatePage 0, .freePage 0 0x400000]

/-- An address of the heap that was never mapped: the call panics. -/
theorem misfree_harmless_iff_unmapped : ∃ (s : VmSys RefList) (c : Space),
    s.procs 0 = some c ∧ s.pmm.Listed (s.pmm.freeList 64) ∧ ¬ c.LivePage 0x401000 ∧
      KeepsFreeList s.pmm c 0x401000 (s.pmm.freeList 64) ∧ KeepsListSound s.pmm c 0x401000 := by
  obtain ⟨-, -, s, -, c, hc, hl, hlive, hr⟩ : ProcessAfter pageReturned (fun s c =>
      ¬ c.LivePage 0x401000 ∧ ¬ Releases s c 0x401000) := by decide +kernel
  have hkept : KeepsFreeList s.pmm c 0x401000 (s.pmm.freeList 64) :=
    (misfree_harmless_iff hl).1.mpr (fun h => absurd h hr) hlive
  have hsound : KeepsListSound s.pmm c 0x401000 :=
    (misfree_harmless_iff hl).2.mpr (fun h => absurd h hr) hlive
  exact ⟨s, c, hc, hl, hlive, hkept, hsound⟩

/-- The page is given back once more: its frame is on the free list twice, and the next two calls
of `alloc_page` return it. -/
theorem page_freed_twice : ∃ (s₀ s : VmSys RefList) (c : Space) (s' s₁ s₂ : Pmm RefList)
    (pt : PageTable),
    vmBoot 0x80006000 (64 * PGSIZE) (fun _ => 0) [] 0x80001000 = .ok s₀ ∧
      Reaches VmSys.step (fun _ _ => True) s₀ s ∧ s.procs 0 = some c ∧
      s.pmm.Listed (s.pmm.freeList 64) ∧ ¬ c.LivePage 0x400000 ∧
      userVmUnmap s.pmm c.pagetable 0x400000 = .ok (s', pt) ∧
      (∀ free, ¬ s'.Listed free) ∧ allocPage s' = .ok (c.frame 0x400000, s₁) ∧
      allocPage s₁ = .ok (c.frame 0x400000, s₂) := by
  obtain ⟨s₀, hboot, s, hrun, c, hc, hl, hlive, hr, hmem, ⟨s', pt⟩, hunmap, ⟨p, s₁⟩, ha, rfl,
      ⟨q, s₂⟩, hb, rfl⟩ : ProcessAfter pageReturned (fun s c =>
      ¬ c.LivePage 0x400000 ∧ Releases s c 0x400000 ∧ c.frame 0x400000 ∈ s.freeList 64 ∧
      ∃ r, userVmUnmap s c.pagetable 0x400000 = .ok r ∧
      ∃ a, allocPage r.1 = .ok a ∧ a.1 = c.frame 0x400000 ∧
      ∃ b, allocPage a.2 = .ok b ∧ b.1 = c.frame 0x400000) := by decide +kernel
  refine ⟨s₀, s, c, s', s₁, s₂, pt, hboot, hrun.reaches .start, hc, hl, hlive, hunmap, ?_, ha, hb⟩
  intro free hl'
  obtain ⟨-, -, hfree, -⟩ := userVmUnmap_inv hunmap
  exact (freePage_sound_iff hl hfree).mp ⟨free, hl'⟩ hr.2 hmem

end CabbagePKE
