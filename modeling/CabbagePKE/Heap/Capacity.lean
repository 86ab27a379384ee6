import CabbagePKE.Heap.Accounting

/-!
# The stack of reclaimed pages

`sys_user_free_page` stores the address at `free_pages_address[free_pages_count]`
and never compares the count with `MAX_HEAP_PAGES`. The heap has as many pages as
the process ever held at once, so the store is inside the array as long as the
process holds fewer than `MAX_HEAP_PAGES` pages less than it once did.
-/

namespace CabbagePKE

open Lib List

variable {T : Type} [RefTable T]

/-- The index at which `sys_user_free_page` stores `va`, after `user_vm_unmap`. -/
def reclaimSlot (s : Pmm T) (c : Space) (va : Nat) : Outcome Nat := do
  let _ ← userVmUnmap s c.pagetable va
  return c.freePages.length

theorem sysUserFreePage_slot {s : Pmm T} {c : Space} {va i : Nat} (h : reclaimSlot s c va = .ok i) :
    sysUserFreePage s c va = .error .undefined ↔ MAX_HEAP_PAGES ≤ i := by
  simp only [reclaimSlot, bind_eq_ok] at h
  obtain ⟨⟨s', pt⟩, hunmap, ⟨⟩⟩ := h
  rw [sysUserFreePage, hunmap, ok_bind]
  dsimp only
  split
  · rename_i hfull
    exact ⟨fun _ => hfull, fun _ => rfl⟩
  · rename_i hroom
    constructor
    · intro h
      cases h
    · exact fun hfull => absurd hfull hroom

def PageUser.FreesHeld (u : PageUser T) : PageCall → Prop
  | .allocate => True
  | .free va => va ∈ u.live

structure Holding where
  held : Nat
  peak : Nat

def Holding.step (h : Holding) : PageCall → Holding
  | .allocate => { held := h.held + 1, peak := max h.peak (h.held + 1) }
  | .free _ => { h with held := h.held - 1 }

def holding (calls : List PageCall) : Holding := calls.foldl Holding.step ⟨0, 0⟩

structure PageUser.Counts (u : PageUser T) (h : Holding) : Prop where
  held : u.live.length = h.held
  peak : u.space.freePages.length + u.live.length = h.peak

section

variable {u u' : PageUser T} {h : Holding} {call : PageCall}

theorem PageUser.Counts.allocate (hc : u.Counts h) (hs : u.step .allocate = .ok u') :
    u'.Counts (h.step .allocate) := by
  have hheld := hc.held
  have hpeak := hc.peak
  simp only [PageUser.step, bind_eq_ok] at hs
  obtain ⟨⟨pmm, c⟩, ha, ⟨⟩⟩ := hs
  obtain ⟨pa, s1, -, ⟨va, rest, pt, hfree, -, -, rfl⟩ | ⟨hfree, pt, -, rfl⟩⟩ :=
    sysUserAllocatePage_inv ha
  · -- a reclaimed page: fewer are held than at the peak
    rw [hfree, length_cons] at hpeak
    refine ⟨?_, ?_⟩
    · rw [length_cons, hheld]
      rfl
    · simp only [length_cons, Holding.step]
      omega
  · -- a new page: everything was held
    rw [hfree, length_nil] at hpeak
    refine ⟨?_, ?_⟩
    · rw [length_cons, hheld]
      rfl
    · simp only [hfree, length_cons, length_nil, Holding.step]
      omega

theorem PageUser.Counts.free {va : Nat} (hc : u.Counts h) (hva : va ∈ u.live)
    (hs : u.step (.free va) = .ok u') : u'.Counts (h.step (.free va)) := by
  have hheld := hc.held
  have hpeak := hc.peak
  have hpos := length_pos_of_mem hva
  simp only [PageUser.step, bind_eq_ok] at hs
  obtain ⟨⟨pmm, c⟩, hf, ⟨⟩⟩ := hs
  obtain ⟨pt, -, rfl⟩ := sysUserFreePage_inv hf
  refine ⟨?_, ?_⟩
  · simp only [length_erase_of_mem hva, Holding.step]
    omega
  · simp only [length_erase_of_mem hva, length_cons, Holding.step]
    omega

theorem PageUser.Counts.step (hc : u.Counts h) (hok : u.FreesHeld call)
    (hs : u.step call = .ok u') : u'.Counts (h.step call) := by
  cases call with
  | allocate => exact hc.allocate hs
  | free va => exact hc.free hok hs

end

/-- **Where addresses are stored.** After any sequence of calls of a new process
that frees only pages it holds, the next address to be reclaimed is stored inside
`free_pages_address` exactly if the process held fewer than `MAX_HEAP_PAGES`
pages more at its peak than it holds now. -/
theorem reclaim_slot_inside_iff {pmm : Pmm T} {trapSec : Nat} {phs : List ElfProgHeader}
    {u₀ u : PageUser T} {calls : List PageCall} {va i : Nat}
    (hboot : PageUser.boot pmm trapSec phs = .ok u₀)
    (hrun : Runs PageUser.step PageUser.FreesHeld u₀ calls u)
    (hslot : reclaimSlot u.pmm u.space va = .ok i) :
    i < MAX_HEAP_PAGES ↔ (holding calls).peak < (holding calls).held + MAX_HEAP_PAGES := by
  simp only [PageUser.boot, bind_eq_ok] at hboot
  obtain ⟨w, hw, hboot⟩ := hboot
  cases hboot
  have hempty := (HeapUser.boot_fresh hw).empty
  have hstart : PageUser.Counts { pmm := w.pmm, space := w.space, live := [] } ⟨0, 0⟩ := by
    refine ⟨rfl, ?_⟩
    simp only [hempty.reclaimed, length_nil]
  have hc : u.Counts (holding calls) :=
    hrun.foldl PageUser.Counts (fun _ _ _ _ hi hok hs => hi.step hok hs) hstart
  have hheld := hc.held
  have hpeak := hc.peak
  simp only [reclaimSlot, bind_eq_ok] at hslot
  obtain ⟨-, -, ⟨⟩⟩ := hslot
  omega

instance PageUser.FreesHeld.decidable (u : PageUser T) : ∀ call, Decidable (u.FreesHeld call)
  | .allocate => isTrue trivial
  | .free _ => inferInstanceAs (Decidable (_ ∈ _))

/-- A new process on a small machine makes the calls; `P` holds of the state after. -/
abbrev ReclaimRun (calls : List PageCall) (P : PageUser RefList → Prop) : Prop :=
  ∃ pmm, pmmInit 0x80006000 (64 * PGSIZE) (fun _ => 0) ([] : RefList) = .ok pmm ∧
    ∃ u₀, PageUser.boot pmm 0x80001000 [segmentAt 0x10000 5] = .ok u₀ ∧
    ∃ u, Runs PageUser.step PageUser.FreesHeld u₀ calls u ∧ P u

/-- Three pages taken, one given back: the second goes to index 1. -/
theorem reclaim_slot_inside_iff_three : ∃ (pmm : Pmm RefList) (u₀ u : PageUser RefList),
    PageUser.boot pmm 0x80001000 [segmentAt 0x10000 5] = .ok u₀ ∧
      Runs PageUser.step PageUser.FreesHeld u₀
        [.allocate, .allocate, .allocate, .free 0x401000] u ∧
      0x400000 ∈ u.live ∧ reclaimSlot u.pmm u.space 0x400000 = .ok 1 ∧ 1 < MAX_HEAP_PAGES := by
  obtain ⟨pmm, -, u₀, hboot, u, hrun, hlive, hslot⟩ :
      ReclaimRun [.allocate, .allocate, .allocate, .free 0x401000] (fun u =>
        0x400000 ∈ u.live ∧ reclaimSlot u.pmm u.space 0x400000 = .ok 1) := by decide +kernel
  exact ⟨pmm, u₀, u, hboot, hrun, hlive, hslot,
    (reclaim_slot_inside_iff hboot hrun hslot).mpr (by decide)⟩

/-- The pages of a heap of one page more than the array has room for. -/
def oneTooMany : List PageCall :=
  List.replicate (MAX_HEAP_PAGES + 1) .allocate ++
    (List.range MAX_HEAP_PAGES).map (fun i => .free (USER_FREE_ADDRESS_START + i * PGSIZE))

/-- A process takes one page more than the array has room for and gives all of
them back: the last address is stored behind the array. -/
theorem reclaim_slot_past_end : ∃ (pmm : Pmm RefList) (u₀ u : PageUser RefList),
    pmmInit 0x80006000 (64 * PGSIZE) (fun _ => 0) [] = .ok pmm ∧
      PageUser.boot pmm 0x80001000 [segmentAt 0x10000 5] = .ok u₀ ∧
      Runs PageUser.step PageUser.FreesHeld u₀ oneTooMany u ∧ u.live = [0x420000] ∧
      reclaimSlot u.pmm u.space 0x420000 = .ok MAX_HEAP_PAGES ∧
      u.step (.free 0x420000) = .error .undefined := by
  obtain ⟨pmm, hpmm, u₀, hboot, u, hrun, hlive, hslot⟩ : ReclaimRun oneTooMany (fun u =>
      u.live = [0x420000] ∧ reclaimSlot u.pmm u.space 0x420000 = .ok MAX_HEAP_PAGES) := by
    decide +kernel
  refine ⟨pmm, u₀, u, hpmm, hboot, hrun, hlive, hslot, ?_⟩
  rw [PageUser.step, (sysUserFreePage_slot hslot).mpr le_rfl, error_bind]

end CabbagePKE
