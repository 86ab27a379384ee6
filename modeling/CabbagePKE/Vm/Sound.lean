import CabbagePKE.Vm.Pages

/-!
# Whole runs of the memory system

`VmSys.FrameOk` is what a step needs beyond the promise that
`sys_user_free_page` gets a live heap page: segments are page-aligned, `exec`
meets no writable page that another process maps outside a heap, the heap does
not grow onto another region, and a store does not fault on a page given back
while it was shared. Under it no mapped page is ever free.
-/

namespace CabbagePKE

open Lib Function
open GuardedTable (Good)

variable {T : Type}

/-! ## The entries of a system -/

def VmSys.entries (s : VmSys T) : Entries := fun q v =>
  match s.procs q with
  | none => Pte.zero
  | some c => c.pagetable.entries v

def VmSys.inHeap (s : VmSys T) (q v : Nat) : Prop :=
  match s.procs q with
  | none => False
  | some c => c.InHeap v

section

variable {s : VmSys T} {p v : Nat} {c : Space}

theorem VmSys.entries_some (h : s.procs p = some c) : s.entries p v = c.pagetable.entries v := by
  simp only [VmSys.entries, h]

theorem VmSys.entries_none (h : s.procs p = none) : s.entries p v = Pte.zero := by
  simp only [VmSys.entries, h]

theorem VmSys.inHeap_some (h : s.procs p = some c) : s.inHeap p v ↔ c.InHeap v := by
  simp only [VmSys.inHeap, h]

theorem VmSys.entries_put (s : VmSys T) (pmm : Pmm T) (p : Nat) (c : Space) :
    (s.put pmm p c).entries = withTable s.entries p c.pagetable := by
  funext q w
  by_cases hq : q = p
  · subst hq
    simp [VmSys.entries, VmSys.put, withTable_self]
  · simp [VmSys.entries, VmSys.put, withTable_of_ne hq, update_of_ne hq]

theorem VmSys.inHeap_put (s : VmSys T) (pmm : Pmm T) (p : Nat) (c : Space) :
    (s.put pmm p c).inHeap = fun q w => if q = p then c.InHeap w else s.inHeap q w := by
  funext q w
  by_cases hq : q = p
  · subst hq
    simp [VmSys.inHeap, VmSys.put]
  · simp [VmSys.inHeap, VmSys.put, hq]

end

/-! ## What a step needs -/

/-- `sys_user_free_page` is called on a live page of the process's heap. -/
def VmSys.Allowed (s : VmSys T) : VmOp → Prop
  | .freePage p va =>
    ∃ c, s.procs p = some c ∧ va % PGSIZE = 0 ∧ c.InHeap (va / PGSIZE) ∧
      (c.pagetable.entry (va / PGSIZE)).v = true
  | _ => True

def SegmentsAligned (phs : List ElfProgHeader) : Prop :=
  ∀ ph ∈ phs, ph.isLoad = true → ph.vaddr % PGSIZE = 0

/-- No other process maps a writable page of a region of `p` other than its
heap. -/
def VmSys.Alone (s : VmSys T) (p : Nat) (c : Space) : Prop :=
  ∀ j, j < c.totalMappedRegion → j ≠ 3 → (c.mappedInfo j).npages = 1 →
    (c.pagetable.entry ((c.mappedInfo j).va / PGSIZE)).v = true →
    (c.pagetable.entry ((c.mappedInfo j).va / PGSIZE)).perm.w = true →
    ∀ q w, q ≠ p → (s.entries q w).v = true →
      (s.entries q w).pa ≠ (c.pagetable.entry ((c.mappedInfo j).va / PGSIZE)).pa

def VmSys.FrameOk (s : VmSys T) : VmOp → Prop
  | .load phs => SegmentsAligned phs
  | .fork _ _ => True
  | .exec p phs => SegmentsAligned phs ∧ ∀ c, s.procs p = some c → s.Alone p c
  | .allocatePage p => ∀ c, s.procs p = some c →
      ∀ j, j < c.totalMappedRegion → j ≠ 3 → (c.mappedInfo j).npages = 1 →
        (c.mappedInfo j).va ≠ c.heapTop
  | .freePage _ _ => True
  | .store p sp va _ => ∀ c, s.procs p = some c → ¬ stackFault sp va →
      (c.pagetable.entry (va / PGSIZE)).rsw = 1 → (c.pagetable.entry (va / PGSIZE)).v = true

def VmSys.NoFreeMapped (s : VmSys T) : Prop :=
  ∀ p c v, s.procs p = some c → v < MAXVA / PGSIZE → (c.pagetable.entry v).v = true →
    ¬ Linked (nodeNext s.pmm.mem) (toPtr s.pmm.gFreeMemList) (c.pagetable.entry v).pa

/-! ## The invariant -/

variable [GuardedTable T]

structure VmSys.Sound (iso : Nat → Prop) (lo hi : Nat) (s : VmSys T) : Prop where
  kernel : KernelAt lo s.trapSec
  books : Books iso lo hi s.pmm s.entries s.inHeap []
  ok : ∀ p c, s.procs p = some c → c.Ok

/-- The system before its first process: the kernel image lies below the
managed pages, the kernel may have taken some of them. -/
structure VmSys.Booted (s : VmSys T) : Prop where
  kernel : KernelAt s.pmm.freeMemStartAddr s.trapSec
  wf : ∃ free, s.pmm.Wf free
  good : Good s.pmm.refs
  empty : ∀ p, s.procs p = none

section

variable {iso : Nat → Prop} {lo hi : Nat} {s s' : VmSys T} {p i : Nat} {c : Space}

theorem VmSys.Booted.sound (h : s.Booted) (iso : Nat → Prop) :
    s.Sound iso s.pmm.freeMemStartAddr s.pmm.freeMemEndAddr := by
  obtain ⟨free, hw⟩ := h.wf
  have hz : ∀ q w, s.entries q w = Pte.zero := fun q w => VmSys.entries_none (h.empty q)
  have hv : ∀ q w, ¬ (s.entries q w).v = true := by
    intro q w
    rw [hz]
    decide
  refine ⟨h.kernel, ⟨fun _ => False, free, rfl, rfl, hw, ?_, ?_, ?_, ?_, ?_, by simp, by simp,
    ?_, ?_⟩, fun p c hc => ?_⟩
  · exact ⟨fun _ => ∅, fun f => by simp, fun q f hh => absurd hh.1 (hv _ _)⟩
  · exact fun q w h' => absurd h' (hv q w)
  · exact fun q w h' => absurd h' (hv q w)
  · exact fun q w h' => absurd h' (hv q w)
  · exact fun q w h' => absurd h' (hv q w)
  · exact fun q w h' => absurd h' (hv q w)
  · exact fun q w _ h' => absurd h' (hv q w)
  · simp [h.empty] at hc

theorem VmSys.Sound.runsIn (h : s.Sound iso lo hi) (hc : s.procs p = some c) :
    RunsIn s.entries s.inHeap p c :=
  ⟨fun _ => VmSys.entries_some hc, fun _ => VmSys.inHeap_some hc, h.ok p c hc⟩

theorem VmSys.Sound.put (h : s.Sound iso lo hi) {pmm : Pmm T}
    (hb : Books iso lo hi pmm (withTable s.entries p c.pagetable)
      (fun q v => if q = p then c.InHeap v else s.inHeap q v) []) (hc : c.Ok) :
    (s.put pmm p c).Sound iso lo hi := by
  refine ⟨h.kernel, ?_, fun q d hd => ?_⟩
  · rwa [VmSys.entries_put, VmSys.inHeap_put]
  · by_cases hq : q = p
    · subst hq
      simp only [VmSys.put, update_self, Option.some.injEq] at hd
      exact hd ▸ hc
    · simp only [VmSys.put, update_of_ne hq] at hd
      exact h.ok q d hd

omit [GuardedTable T] in
theorem VmSys.freeSlot_none (h : s.freeSlot = .ok i) : s.procs i = none := by
  unfold VmSys.freeSlot at h
  split at h
  · cases h
  · rename_i j hj
    cases h
    simpa using List.find?_some hj

theorem VmSys.Sound.drawHeap (h : s.Sound iso lo hi) (hi' : s.procs i = none) (heap : Nat → Prop) :
    Books iso lo hi s.pmm s.entries (fun q v => if q = i then heap v else s.inHeap q v) [] := by
  refine h.books.redraw (fun q v hv => ?_)
  by_cases hq : q = i
  · subst hq
    rw [VmSys.entries_none hi'] at hv
    exact absurd hv (by decide)
  · simp only [if_neg hq]

/-! ## One step -/

theorem VmSys.Sound.load (h : s.Sound iso lo hi) {phs : List ElfProgHeader}
    (hal : SegmentsAligned phs) (hs : s.step (.load phs) = .ok s') (hg : Good s'.pmm.refs) :
    s'.Sound iso lo hi := by
  simp only [VmSys.step, bind_eq_ok] at hs
  obtain ⟨i, hi', ⟨pmm1, c1⟩, hal1, ⟨pmm2, c2⟩, hload, hs⟩ := hs
  cases hs
  have hnone := VmSys.freeSlot_none hi'
  have hb := h.drawHeap hnone (fun _ => False)
  have hg1 := elfLoad_good _ _ _ hload hg
  obtain ⟨hb1, hok1, hempty1, -⟩ := hb.allocProcess h.kernel
    (fun v => VmSys.entries_none hnone) (fun v hin => by simp at hin) hal1 hg1
  obtain ⟨hb2, hok2, hempty2⟩ := Books.elfLoad phs _ _ hb1 hok1 hempty1 hal hload hg
  refine h.put ?_ hok2
  have heq : (fun q v => if q = i then c2.InHeap v else s.inHeap q v)
      = fun q v => if q = i then False else s.inHeap q v := by
    funext q v
    simp only [not_inHeap_of_empty hempty2]
  rwa [heq]

theorem VmSys.Sound.fork (h : s.Sound iso lo hi) {garbage : Nat → Bool} (hslot : s.freeSlot = .ok i)
    (hiso : iso i → iso p ∧ ∀ c, s.procs p = some c → ∀ v, c.InHeap v →
      (c.pagetable.entry v).v = true → (c.pagetable.entry v).perm.w = false)
    (hs : s.step (.fork p garbage) = .ok s') (hg : Good s'.pmm.refs) :
    s'.Sound iso lo hi := by
  obtain ⟨parent, j, pmm, c, hparent, hj, hd, rfl⟩ := VmSys.fork_inv hs
  cases hslot.symm.trans hj
  have hnone := VmSys.freeSlot_none hslot
  have hne : p ≠ i := by
    rintro rfl
    simp [hparent] at hnone
  have hr := h.runsIn hparent
  have hb := h.drawHeap hnone parent.InHeap
  have hf : ForkAt iso s.entries (fun q v => if q = i then parent.InHeap v else s.inHeap q v)
      p i parent :=
    ⟨hne, hr.entries, fun v => by simp only [if_neg hne, hr.heap], fun v => by simp only [if_true],
      hr.ok, fun hi' => (hiso hi').1, fun hi' => (hiso hi').2 parent hparent⟩
  obtain ⟨hb', hok, hheap⟩ := hb.doFork h.kernel hf (fun v => VmSys.entries_none hnone) hd hg
  refine h.put ?_ hok
  have heq : (fun q v => if q = i then c.InHeap v else s.inHeap q v)
      = fun q v => if q = i then parent.InHeap v else s.inHeap q v := by
    funext q v
    by_cases hq : q = i
    · have hv := hheap v
      simp only [hq, if_true] at hv ⊢
      exact propext hv.symm
    · simp only [if_neg hq]
  rwa [heq]

theorem VmSys.Sound.exec (h : s.Sound iso lo hi) {phs : List ElfProgHeader}
    (hok : s.FrameOk (.exec p phs)) (hs : s.step (.exec p phs) = .ok s')
    (hg : Good s'.pmm.refs) : s'.Sound iso lo hi := by
  obtain ⟨c, pmm, c', hc, hd, rfl⟩ := VmSys.onSpace_inv hs
  have hr := h.runsIn hc
  obtain ⟨hal, halone⟩ := hok
  obtain ⟨hb, hok', hempty⟩ :=
    h.books.doExec h.kernel ⟨hr.entries, hr.heap, hr.ok,
      fun j hj hn => halone c hc j (hr.ok.registered hn) hj hn⟩ hal hd hg
  refine h.put ?_ hok'
  have heq : (fun q v => if q = p then c'.InHeap v else s.inHeap q v)
      = fun q v => if q = p then False else s.inHeap q v := by
    funext q v
    simp only [not_inHeap_of_empty hempty]
  rwa [heq]

theorem VmSys.Sound.allocatePage (h : s.Sound iso lo hi) (hok : s.FrameOk (.allocatePage p))
    (hnull : iso p → s.pmm.gFreeMemList ≠ 0) (hs : s.step (.allocatePage p) = .ok s')
    (hg : Good s'.pmm.refs) : s'.Sound iso lo hi := by
  obtain ⟨c, pmm, c', hc, hd, rfl⟩ := VmSys.onSpace_inv hs
  have hr := h.runsIn hc
  obtain ⟨hb, hok'⟩ := h.books.allocatePage hr hd hg
    (fun j hj hn => hok c hc j (hr.ok.registered hn) hj hn) hnull
  exact h.put hb hok'

theorem VmSys.Sound.put_same (h : s.Sound iso lo hi) {pmm : Pmm T} {c' : Space}
    (hc : s.procs p = some c)
    (hb : Books iso lo hi pmm (withTable s.entries p c'.pagetable) s.inHeap [])
    (hheap : ∀ v, c'.InHeap v ↔ c.InHeap v) (hok : c'.Ok) :
    (s.put pmm p c').Sound iso lo hi := by
  refine h.put ?_ hok
  have heq : (fun q v => if q = p then c'.InHeap v else s.inHeap q v) = s.inHeap := by
    funext q v
    by_cases hq : q = p
    · subst hq
      simp only [if_true, hheap, VmSys.inHeap_some hc]
    · simp only [if_neg hq]
  rwa [heq]

theorem VmSys.Sound.freePage (h : s.Sound iso lo hi) {va : Nat}
    (hal : s.Allowed (.freePage p va)) (hs : s.step (.freePage p va) = .ok s') :
    s'.Sound iso lo hi := by
  obtain ⟨c, pmm, c', hc, hd, rfl⟩ := VmSys.onSpace_inv hs
  obtain ⟨c0, hc0, hva, hin, hv⟩ := hal
  cases hc.symm.trans hc0
  obtain ⟨hb, hok⟩ := h.books.freeHeapPage (h.runsIn hc) hd hva hin hv
  obtain ⟨pt', -, rfl⟩ := sysUserFreePage_inv hd
  exact h.put_same hc hb (fun _ => Iff.rfl) hok

theorem VmSys.Sound.store (h : s.Sound iso lo hi) {sp va : Nat} {b : UInt8}
    (hok : s.FrameOk (.store p sp va b)) (hs : s.step (.store p sp va b) = .ok s')
    (hg : Good s'.pmm.refs) : s'.Sound iso lo hi := by
  obtain ⟨c, pmm, c', hc, hd, rfl⟩ := VmSys.onSpace_inv hs
  obtain ⟨hb, hok', hheap⟩ := h.books.userStore (h.runsIn hc) hd hg (hok c hc)
  exact h.put_same hc hb hheap hok'

theorem VmSys.Sound.step (h : s.Sound (fun _ => False) lo hi) {op : VmOp}
    (hal : s.Allowed op) (hok : s.FrameOk op) (hs : s.step op = .ok s')
    (hg : Good s'.pmm.refs) : s'.Sound (fun _ => False) lo hi := by
  cases op with
  | load phs => exact h.load hok hs hg
  | fork p garbage =>
    obtain ⟨parent, i, -, -, -, hi', -⟩ := VmSys.fork_inv hs
    exact h.fork hi' (fun hf => hf.elim) hs hg
  | exec p phs => exact h.exec hok hs hg
  | allocatePage p => exact h.allocatePage hok (fun hf => hf.elim) hs hg
  | freePage p va => exact h.freePage hal hs
  | store p sp va b => exact h.store hok hs hg

theorem VmSys.Sound.noFreeMapped (h : s.Sound iso lo hi) : s.NoFreeMapped := by
  intro p c v hc hlt hv hlink
  obtain ⟨isHeap, free, hl⟩ := h.books
  have hent : s.entries p v = c.pagetable.entry v := by
    rw [VmSys.entries_some hc, entries_of_lt hlt]
  rw [hl.wf.chain.linked_iff] at hlink
  have hnf := hl.not_free (p := p) (v := v) (by rw [hent]; exact hv)
  rw [hent] at hnf
  exact hnf hlink

end

theorem vmBoot_booted {kernelEnd memSize trapSec : Nat} {mem : Mem} {refs : T}
    (hk : KernelAt (ROUNDUP kernelEnd PGSIZE) trapSec) (hwf : RefTable.Wf refs)
    (hcnt : ∀ q, RefTable.count refs q = 0) {s : VmSys T}
    (h : vmBoot kernelEnd memSize mem refs trapSec = .ok s) (hg : Good s.pmm.refs) :
    s.Booted := by
  simp only [vmBoot, bind_eq_ok] at h
  obtain ⟨pmm, hinit, h⟩ := h
  cases h
  obtain ⟨hst, free, hw, -⟩ := pmmInit_wf hwf hcnt hinit
  exact ⟨by rwa [hst], ⟨free, hw⟩, hg, fun _ => rfl⟩

/-! ## No mapped page is free -/

/-- The states reached from `s₀` by steps that meet `ok`, with
`sys_user_free_page` called on live heap pages only. -/
def VmSys.Run (ok : VmSys T → VmOp → Prop) (s₀ s : VmSys T) : Prop :=
  Reaches VmSys.step (fun s op => s.Allowed op ∧ ok s op) s₀ s

/-- In every run that starts before the first process and whose steps all
meet `VmSys.FrameOk`, no mapped page is on the free list. -/
theorem mapped_pages_not_free {s₀ s : VmSys IdealRefs} (h₀ : s₀.Booted)
    (h : s₀.Run VmSys.FrameOk s) : s.NoFreeMapped := by
  have hsound : s.Sound (fun _ => False) s₀.pmm.freeMemStartAddr s₀.pmm.freeMemEndAddr := by
    refine Reaches.invariant _ (h₀.sound _) (fun s op s' hi' hok hs => ?_) h
    exact hi'.step hok.1 hok.2 hs trivial
  exact hsound.noFreeMapped

/-! ### Concrete runs -/

instance Space.InHeap.decidable (c : Space) (v : Nat) : Decidable (c.InHeap v) :=
  inferInstanceAs (Decidable (_ ∧ _))

instance VmSys.Allowed.decidable (s : VmSys T) : ∀ op, Decidable (s.Allowed op)
  | .freePage p va => inferInstanceAs (Decidable (∃ c, s.procs p = some c ∧ va % PGSIZE = 0 ∧
      c.InHeap (va / PGSIZE) ∧ (c.pagetable.entry (va / PGSIZE)).v = true))
  | .load _ | .fork _ _ | .exec _ _ | .allocatePage _ | .store _ _ _ _ => instDecidableTrue

-- `exec` asks about the pages of every other process
open Classical in
noncomputable instance VmSys.FrameOk.decidable (s : VmSys T) : ∀ op, Decidable (s.FrameOk op)
  | .load phs => inferInstanceAs (Decidable (∀ ph ∈ phs, ph.isLoad = true → _ = 0))
  | .fork _ _ | .freePage _ _ => instDecidableTrue
  | .exec _ _ => propDecidable _
  | .allocatePage p => inferInstanceAs (Decidable (∀ c, s.procs p = some c →
      ∀ j, j < c.totalMappedRegion → j ≠ 3 → (c.mappedInfo j).npages = 1 →
        (c.mappedInfo j).va ≠ c.heapTop))
  | .store p sp va _ => inferInstanceAs (Decidable (∀ c, s.procs p = some c → ¬ stackFault sp va →
      (c.pagetable.entry (va / PGSIZE)).rsw = 1 → (c.pagetable.entry (va / PGSIZE)).v = true))

theorem vmSmall_booted {refs : T} (hwf : RefTable.Wf refs) (hcnt : ∀ q, RefTable.count refs q = 0)
    {s : VmSys T} (h : vmSmall refs = .ok s) (hg : Good s.pmm.refs) : s.Booted :=
  vmBoot_booted ⟨by decide, by decide, by decide⟩ hwf hcnt h hg

/-- A child that writes a heap page it shares, and gives its copy back. -/
theorem mapped_pages_not_free_shared :
    ∃ s₀ s : VmSys IdealRefs, s₀.Booted ∧ s₀.Run VmSys.FrameOk s ∧
      (s.procs 1).any (fun c => (c.pagetable.entry 0x10).v) = true ∧ s.NoFreeMapped := by
  obtain ⟨s₀, hboot, s, hrun, ht⟩ : ∃ s₀, vmSmall (⟨fun _ => 0⟩ : IdealRefs) = .ok s₀ ∧
      ∃ s, Runs VmSys.step (fun s op => s.Allowed op ∧ s.FrameOk op) s₀
        [.load [segmentAt 0x10000 5, segmentAt 0x11000 6], .allocatePage 0,
          .fork 0 (fun _ => false), .store 1 0x7fffe000 USER_FREE_ADDRESS_START 7,
          .freePage 1 USER_FREE_ADDRESS_START] s ∧
      (s.procs 1).any (fun c => (c.pagetable.entry 0x10).v) = true := by decide +kernel
  have hbooted := vmSmall_booted trivial (fun _ => rfl) hboot trivial
  have hreach : s₀.Run VmSys.FrameOk s := hrun.reaches .start
  exact ⟨s₀, s, hbooted, hreach, ht, mapped_pages_not_free hbooted hreach⟩

/-- The process that loaded a program forks and then calls `exec`: its code
page is freed, although the child maps it. -/
theorem mapped_page_freed : ¬ ∀ s₀ s : VmSys IdealRefs, s₀.Booted →
    s₀.Run (fun _ _ => True) s → s.NoFreeMapped := by
  intro hclaim
  obtain ⟨s₀, hboot, s, hrun, c, hc, hv, hpa, hne⟩ :
      ∃ s₀, vmSmall (⟨fun _ => 0⟩ : IdealRefs) = .ok s₀ ∧
      ∃ s, Runs VmSys.step (fun s op => s.Allowed op ∧ True) s₀
        [.load (segmentAt 0x10000 5 ::
            (List.range 9).map (fun k => segmentAt (0x11000 + k * PGSIZE) 6)),
          .fork 0 (fun _ => false), .exec 0 [segmentAt 0x10000 5]] s ∧
      ∃ c, s.procs 1 = some c ∧ (c.pagetable.entry 0x10).v = true ∧
        (c.pagetable.entry 0x10).pa = s.pmm.gFreeMemList ∧ s.pmm.gFreeMemList ≠ 0 := by
    decide +kernel
  have hbooted := vmSmall_booted trivial (fun _ => rfl) hboot trivial
  refine hclaim s₀ s hbooted (hrun.reaches .start) 1 c 0x10 hc (by decide) hv ?_
  have hhead : toPtr s.pmm.gFreeMemList = some (c.pagetable.entry 0x10).pa :=
    toPtr_eq_some.mpr ⟨hpa.symm, by rw [hpa]; exact hne⟩
  rw [hhead]
  exact .here

end CabbagePKE
