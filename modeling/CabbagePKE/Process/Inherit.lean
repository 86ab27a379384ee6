import CabbagePKE.Process.Files
import CabbagePKE.Vm.Plain

/-!
# The files a child inherits

`do_fork` counts a reference to the dentry of each entry of the parent's table,
by a test for a null pointer and not for the status. A closed entry keeps its
dentry and an entry that was never used holds what was on the page before, so the
counts are right only where these are null (`fork_counts_open_iff`).
-/

namespace CabbagePKE

open Lib Function List

variable {T : Type} [RefTable T]

def ProcFiles.openRefs (pfiles : ProcFiles) (d : Nat) : Nat :=
  ((List.range MAX_FILES).filter (fun fd =>
    decide ((pfiles.openedFiles fd).dentry = some d) &&
      decide ((pfiles.openedFiles fd).status = FD_OPENED))).length

def ProcFiles.ClosedNull (pfiles : ProcFiles) : Prop :=
  ∀ fd, fd < MAX_FILES → (pfiles.openedFiles fd).status ≠ FD_OPENED →
    (pfiles.openedFiles fd).dentry = none

theorem countFiles_open_iff (dRef : Nat → Int) (parent : ProcFiles) :
    (∀ d, countFiles dRef parent d = dRef d + parent.openRefs d) ↔ parent.ClosedNull := by
  have hone : ∀ d, countFiles dRef parent d = dRef d + parent.openRefs d ↔
      ∀ fd, fd < MAX_FILES → (parent.openedFiles fd).dentry = some d →
        (parent.openedFiles fd).status = FD_OPENED := by
    intro d
    have hrefs : parent.openRefs d = (((range MAX_FILES).filter
        (fun fd => (parent.openedFiles fd).dentry = some d)).filter
          (fun fd => (parent.openedFiles fd).status = FD_OPENED)).length := by
      rw [ProcFiles.openRefs, filter_filter]
      simp only [Bool.and_comm]
    have hlen := length_filter_eq_length_iff
      (l := (range MAX_FILES).filter (fun fd => (parent.openedFiles fd).dentry = some d))
      (p := fun fd => decide ((parent.openedFiles fd).status = FD_OPENED))
    rw [countFiles, hrefs]
    constructor
    · intro hcount fd hfd hd
      refine of_decide_eq_true (hlen.mp (by omega) fd (mem_filter.mpr ?_))
      exact ⟨mem_range.mpr hfd, decide_eq_true hd⟩
    · intro hall
      rw [hlen.mpr]
      intro fd hfd
      rw [mem_filter, mem_range] at hfd
      exact decide_eq_true (hall fd hfd.1 (of_decide_eq_true hfd.2))
  constructor
  · intro hcount fd hfd hclosed
    cases hd : (parent.openedFiles fd).dentry with
    | none => rfl
    | some d => exact absurd ((hone d).mp (hcount d) fd hfd hd) hclosed
  · intro hnull d
    refine (hone d).mpr (fun fd hfd hd => ?_)
    by_contra hclosed
    simp [hnull fd hfd hclosed] at hd

section

variable {k k₁ : Kernel T} {par i : Nat} {garbage : Nat → Bool} {free : List Nat}

theorem initSpace_takes {s s' : Pmm T} {c : Space} {trapSec trapframe userStack : Nat}
    {pt : PageTable} (hl : s.Listed free)
    (h : initSpace s trapSec pt trapframe userStack = .ok (s', c)) :
    ∃ free', Took s s' free free' := by
  obtain ⟨s1, pt1, s2, pt2, pt3, h1, h2, h3, -⟩ := initSpace_inv h
  obtain ⟨free1, ht1⟩ := userVmMap_took hl h1
  obtain ⟨free2, ht2⟩ := userVmMap_took ht1.listed h2
  obtain ⟨free3, ht3⟩ := userVmMap_took ht2.listed h3
  exact ⟨free3, (ht1.trans ht2).trans ht3⟩

theorem allocProcessPages_pfiles {s s' : Pmm T} {trapSec : Nat} {pages : ProcPages} {c : Space}
    (hl : s.Listed free) (h : allocProcessPages s trapSec = .ok (s', pages, c)) :
    ∃ free', Took s s' free free' ∧ pages.pfiles ∈ free ∧ pages.pfiles ∉ free' := by
  simp only [allocProcessPages, bind_eq_ok] at h
  obtain ⟨⟨tf, s1⟩, h1, _, hm1, ⟨dir, s2⟩, h2, _, hm2, ⟨ks, s3⟩, h3, ⟨stk, s4⟩, h4,
    ⟨info, s5⟩, h5, _, hm3, ⟨s6, c6⟩, h6, ⟨pf, s7⟩, h7, h⟩ := h
  obtain ⟨htf, rfl⟩ := memset_eq hm1
  obtain ⟨hdir, rfl⟩ := memset_eq hm2
  obtain ⟨hinfo, rfl⟩ := memset_eq hm3
  obtain ⟨-, -, htff, free1, hnew1, ht1⟩ := allocPage_fresh hl h1
  have ht1' := ht1.write htff hl hnew1 htf (m := fillBytes s1.mem tf 0 trapframeSize)
    (fun x hx => fillBytes_outside (by unfold PGSIZE trapframeSize at *; omega))
  obtain ⟨-, -, hdirf, free2, hnew2, ht2⟩ := allocPage_fresh ht1'.listed h2
  have ht2' := ht2.write hdirf ht1'.listed hnew2 hdir (m := fillBytes s2.mem dir 0 PGSIZE)
    (fun x hx => fillBytes_outside hx)
  obtain ⟨-, -, -, free3, -, ht3⟩ := allocPage_fresh ht2'.listed h3
  obtain ⟨-, -, -, free4, -, ht4⟩ := allocPage_fresh ht3.listed h4
  obtain ⟨-, -, hinfof, free5, hnew5, ht5⟩ := allocPage_fresh ht4.listed h5
  have ht5' := ht5.write hinfof ht4.listed hnew5 hinfo (m := fillBytes s5.mem info 0 PGSIZE)
    (fun x hx => fillBytes_outside hx)
  obtain ⟨free6, ht6⟩ := initSpace_takes ht5'.listed h6
  obtain ⟨-, -, hpff, free7, hnew7, ht7⟩ := allocPage_fresh ht6.listed h7
  have hto := ((((ht1'.trans ht2').trans ht3).trans ht4).trans ht5').trans ht6
  split at h
  · cases h
  · rename_i hpf
    cases h
    exact ⟨free7, hto.trans ht7, hto.mem_of_mem (hpff.resolve_left hpf), hnew7⟩

theorem Kernel.doFork_dRef (hpar : (k.procs par).proc.status ≠ .free) (hl : k.pmm.Listed free)
    (hpage : (k.procs par).pfiles ∉ free) (h : k.doFork par garbage = .ok (i, k₁)) :
    k₁.dRef = countFiles k.dRef (k.files (k.procs par).pfiles) := by
  simp only [Kernel.doFork, Kernel.allocProcess, bind_eq_ok, pure_eq_ok] at h
  obtain ⟨⟨i', ka⟩, ⟨j, hslot, ⟨pmm0, pages, c0⟩, halloc, hka⟩, ⟨pmm, c⟩, hreg, ⟨queue, head⟩, hq,
    h⟩ := h
  cases hka
  cases h
  have hne : par ≠ i' := by
    rintro rfl
    exact hpar (Kernel.freeSlot_free hslot)
  obtain ⟨free', -, hin, -⟩ := allocProcessPages_pfiles hl halloc
  have hother : (k.procs par).pfiles ≠ pages.pfiles := by
    intro heq
    rw [heq] at hpage
    exact hpage hin
  dsimp only
  rw [update_of_ne hne, update_of_ne hother]

/-- **Which references a fork counts.** `do_fork` adds to the count of every dentry the number of
open entries of the parent that refer to it, and nothing else, if and only if every entry of the
parent that is not open has a null dentry. -/
theorem fork_counts_open_iff (hpar : (k.procs par).proc.status ≠ .free) (hl : k.pmm.Listed free)
    (hpage : (k.procs par).pfiles ∉ free) (h : k.doFork par garbage = .ok (i, k₁)) :
    (∀ d, k₁.dRef d = k.dRef d + (k.files (k.procs par).pfiles).openRefs d) ↔
      (k.files (k.procs par).pfiles).ClosedNull := by
  rw [Kernel.doFork_dRef hpar hl hpage h]
  exact countFiles_open_iff k.dRef _

end

/-! ## A process with files that forks -/

def Vfs.dRefs (s : Vfs) (d : Nat) : Int :=
  match s.dentries d with
  | some e => e.dRef
  | none => 0

def Kernel.withTable (k : Kernel T) (par : Nat) (t : FileTable) : Kernel T :=
  { k with
    files := update k.files (k.procs par).pfiles t.pfiles
    dRef := t.vfs.dRefs }

theorem oneProcess_table {k : Kernel RefList} (h : oneProcess = .ok k) :
    ∃ free, k.pmm.Listed free ∧ (k.procs 0).pfiles ∉ free := by
  rw [oneProcess, kernelBoot, bind_eq_ok] at h
  obtain ⟨k0, hboot, h⟩ := h
  rw [bind_eq_ok] at hboot
  obtain ⟨pmm, hinit, hboot⟩ := hboot
  cases hboot
  obtain ⟨free, hl⟩ := pmmInit_listed hinit
  simp only [Kernel.allocProcess, bind_eq_ok] at h
  obtain ⟨⟨i, k₁⟩, ⟨j, hslot, ⟨pmm1, pages, c⟩, hpages, hk1⟩, h⟩ := h
  have hj : j = 0 := by
    have hzero : ∀ k : Kernel RefList, (∀ i, (k.procs i).proc.status = .free) →
        k.freeSlot = .ok 0 := by
      intro k hfree
      unfold Kernel.freeSlot
      simp only [hfree]
      rfl
    cases hslot
    rfl
  subst hj
  cases hk1
  cases h
  obtain ⟨free', ht, -, hoff⟩ := allocProcessPages_pfiles hl hpages
  refine ⟨free', ht.listed, ?_⟩
  simpa [Kernel.leave, Process.init] using hoff

/-- A process with a table that `ops` lead to forks; `P` holds of the kernels before and after. -/
abbrev InheritRun (ops : List TableOp) (P : Kernel RefList → Kernel RefList → Prop) : Prop :=
  TableRun ops fun t => ∃ k, oneProcess = .ok k ∧ (k.procs 0).proc.status ≠ .free ∧
    ∃ out, (k.withTable 0 t).doFork 0 (fun _ => false) = .ok out ∧ P (k.withTable 0 t) out.2

theorem InheritRun.run {ops : List TableOp} {P : Kernel RefList → Kernel RefList → Prop}
    (h : InheritRun ops P) :
    ∃ (t0 t : FileTable) (k k₁ : Kernel RefList) (i : Nat) (free : List Nat), t0.Fresh ∧
      Reaches FileTable.step (fun _ _ => True) t0 t ∧
      (k.files (k.procs 0).pfiles = t.pfiles ∧ k.dRef = t.vfs.dRefs) ∧
      (k.procs 0).proc.status ≠ .free ∧ (k.pmm.Listed free ∧ (k.procs 0).pfiles ∉ free) ∧
      k.doFork 0 (fun _ => false) = .ok (i, k₁) ∧ P k k₁ := by
  obtain ⟨t0, t, hfresh, hrun, k, hk, hpar, ⟨i, k₁⟩, hfork, hp⟩ := TableRun.reached h
  obtain ⟨free, hl, hpage⟩ := oneProcess_table hk
  exact ⟨t0, t, k.withTable 0 t, k₁, i, free, hfresh, hrun,
    ⟨by simp [Kernel.withTable], rfl⟩, hpar, ⟨hl, hpage⟩, hfork, hp⟩

/-- A process with one open file that never closed another. -/
theorem fork_counts_open_iff_one : ∃ (k k₁ : Kernel RefList) (i : Nat),
    k.doFork 0 (fun _ => false) = .ok (i, k₁) ∧
      (k.files (k.procs 0).pfiles).openRefs 3 = 1 ∧
      ((∀ d, k₁.dRef d = k.dRef d + (k.files (k.procs 0).pfiles).openRefs d) ↔
        (k.files (k.procs 0).pfiles).ClosedNull) := by
  have hrun : InheritRun [.openFile pathA 66]
      (fun k _ => (k.files (k.procs 0).pfiles).openRefs 3 = 1) := by decide +kernel
  obtain ⟨-, t, k, k₁, i, free, -, -, -, hpar, ⟨hl, hpage⟩, hfork, hone⟩ := InheritRun.run hrun
  exact ⟨k, k₁, i, hfork, hone, fork_counts_open_iff hpar hl hpage hfork⟩

/-- A file was opened as 0 and as 1 and closed as 0. A fork counts two more references to its
dentry, though the child gets one open file. -/
theorem fork_counts_closed_entry : ∃ (t₀ t : FileTable) (k k₁ : Kernel RefList) (i : Nat),
    t₀.Fresh ∧ Reaches FileTable.step (fun _ _ => True) t₀ t ∧
      (k.files (k.procs 0).pfiles = t.pfiles ∧ k.dRef = t.vfs.dRefs) ∧
      k.doFork 0 (fun _ => false) = .ok (i, k₁) ∧
      t.pfiles.openRefs 3 = 1 ∧ k.dRef 3 = 1 ∧ k₁.dRef 3 = 3 := by
  have hrun : InheritRun [.openFile pathA 66, .openFile pathA 66, .call 0 .close]
      (fun k k₁ => (k.files (k.procs 0).pfiles).openRefs 3 = 1 ∧ k.dRef 3 = 1 ∧ k₁.dRef 3 = 3) := by
    decide +kernel
  obtain ⟨t₀, t, k, k₁, i, free, hfresh, hreach, htable, -, -, hfork, hopen, hcount⟩ :=
    InheritRun.run hrun
  rw [htable.1] at hopen
  exact ⟨t₀, t, k, k₁, i, hfresh, hreach, htable, hfork, hopen, hcount⟩

end CabbagePKE
