import CabbagePKE.Lib.Tally
import CabbagePKE.Process.Files

/-!
# The number of open files

`do_open` and `do_opendir` count in `nfiles` how many files a process has open,
and `do_open` refuses to open more than `MAX_FILES`. Closing a file does not count
down, so `nfiles` is the number of open files and of all closes so far
(`nfiles_exact_iff`); the entry that an open returns was free all the same.
-/

namespace CabbagePKE

open Lib Finset Function FileTable

/-! ## Counting -/

def ProcFiles.openCount (pfiles : ProcFiles) : Nat :=
  ∑ fd ∈ range MAX_FILES, if (pfiles.openedFiles fd).status = FD_OPENED then 1 else 0

def FdCall.closes : FdCall → Bool
  | .close | .closedir => true
  | .read _ _ _ | .write _ _ | .lseek _ _ | .readdir => false

def FileTable.countStep (tc : FileTable × Nat) : TableOp → Outcome (FileTable × Nat)
  | .call fd c => do
      let (r, t) ← tc.1.call fd c
      return (t, if c.closes ∧ r = 0 then tc.2 + 1 else tc.2)
  | .openFile path flags => do
      let t ← tc.1.step (.openFile path flags)
      return (t, tc.2)
  | .opendir path adjacent => do
      let t ← tc.1.step (.opendir path adjacent)
      return (t, tc.2)
  | .other op => do
      let t ← tc.1.step (.other op)
      return (t, tc.2)

def ClosesOpen (tc : FileTable × Nat) : TableOp → Prop
  | .call fd c => c.closes = true → tc.1.IsOpen fd
  | _ => True

/-- The statuses are `FD_NONE` and `FD_OPENED`, and `nfiles` counts the open entries and the
`closes` closes. -/
structure ProcFiles.Counted (pfiles : ProcFiles) (closes : Nat) : Prop where
  status : ∀ fd, fd < MAX_FILES →
    (pfiles.openedFiles fd).status = FD_NONE ∨ (pfiles.openedFiles fd).status = FD_OPENED
  nfiles : pfiles.nfiles = (pfiles.openCount : Int) + closes

section

variable {pfiles : ProcFiles} {closes i : Nat} {x : OpenFile}

theorem ProcFiles.openCount_update (pfiles : ProcFiles) (x : OpenFile) (nfiles : Int)
    (hi : i < MAX_FILES) :
    ProcFiles.openCount { pfiles with
        openedFiles := update pfiles.openedFiles i x, nfiles := nfiles }
      + (if (pfiles.openedFiles i).status = FD_OPENED then 1 else 0)
      = pfiles.openCount + (if x.status = FD_OPENED then 1 else 0) := by
  have hsum := sum_change
    (f := fun fd => if (pfiles.openedFiles fd).status = FD_OPENED then 1 else 0)
    (g := fun fd => if (update pfiles.openedFiles i x fd).status = FD_OPENED then 1 else 0)
    hi (fun fd hfd => by simp only [update_of_ne hfd])
  simp only [update_self] at hsum
  exact hsum

theorem ProcFiles.Counted.exists_free (h : pfiles.Counted closes)
    (hlt : pfiles.openCount < MAX_FILES) :
    ∃ fd, fd < MAX_FILES ∧ (pfiles.openedFiles fd).status = FD_NONE := by
  by_contra hnone
  have hall : ∀ fd, fd ∈ range MAX_FILES →
      (if (pfiles.openedFiles fd).status = FD_OPENED then 1 else 0) = 1 := by
    intro fd hfd
    rw [mem_range] at hfd
    rcases h.status fd hfd with hfree | hopen
    · exact absurd ⟨fd, hfd, hfree⟩ hnone
    · rw [if_pos hopen]
  have hcount : pfiles.openCount = MAX_FILES := by
    rw [ProcFiles.openCount, sum_congr rfl hall, ← card_eq_sum_ones, card_range]
  omega

theorem ProcFiles.freeFd_spec (h : ∃ fd, fd < MAX_FILES ∧ (pfiles.openedFiles fd).status = FD_NONE) :
    pfiles.freeFd < MAX_FILES ∧ (pfiles.openedFiles pfiles.freeFd).status = FD_NONE := by
  obtain ⟨fd, hfd, hfree⟩ := h
  unfold ProcFiles.freeFd
  cases hfind : (List.range MAX_FILES).find?
      (fun fd => (pfiles.openedFiles fd).status = FD_NONE) with
  | none =>
    have hno := List.find?_eq_none.mp hfind fd (List.mem_range.mpr hfd)
    exact absurd (decide_eq_true hfree) hno
  | some i =>
    rw [Option.getD_some]
    exact ⟨List.mem_range.mp (List.mem_of_find?_eq_some hfind),
      by simpa using List.find?_some hfind⟩

theorem ProcFiles.Counted.install (h : pfiles.Counted closes) (hx : x.status = FD_OPENED)
    (hfree : ∃ fd, fd < MAX_FILES ∧ (pfiles.openedFiles fd).status = FD_NONE) :
    (pfiles.install x).Counted closes := by
  obtain ⟨hlt, hnone⟩ := ProcFiles.freeFd_spec hfree
  have hmin : min pfiles.freeFd (MAX_FILES - 1) = pfiles.freeFd := by omega
  rw [ProcFiles.install, hmin]
  constructor
  · intro fd hfd
    dsimp only
    by_cases heq : fd = pfiles.freeFd
    · subst heq
      rw [update_self]
      exact .inr hx
    · rw [update_of_ne heq]
      exact h.status fd hfd
  · have hcount := pfiles.openCount_update x (pfiles.nfiles + 1) hlt
    have hne : ¬ FD_NONE = FD_OPENED := by decide
    rw [hnone, if_neg hne, if_pos hx] at hcount
    have hn := h.nfiles
    dsimp only
    omega

theorem ProcFiles.Counted.keep (h : pfiles.Counted closes) (hi : i < MAX_FILES)
    (hx : x.status = (pfiles.openedFiles i).status) :
    ProcFiles.Counted { pfiles with openedFiles := update pfiles.openedFiles i x }
      closes := by
  constructor
  · intro fd hfd
    dsimp only
    by_cases heq : fd = i
    · subst heq
      rw [update_self, hx]
      exact h.status fd hfd
    · rw [update_of_ne heq]
      exact h.status fd hfd
  · have hcount := pfiles.openCount_update x pfiles.nfiles hi
    rw [hx] at hcount
    have hn := h.nfiles
    dsimp only
    omega

theorem ProcFiles.Counted.close (h : pfiles.Counted closes) (hi : i < MAX_FILES)
    (hopen : (pfiles.openedFiles i).status = FD_OPENED) (hx : x.status = FD_NONE) :
    ProcFiles.Counted { pfiles with openedFiles := update pfiles.openedFiles i x }
      (closes + 1) := by
  constructor
  · intro fd hfd
    dsimp only
    by_cases heq : fd = i
    · subst heq
      rw [update_self]
      exact .inl hx
    · rw [update_of_ne heq]
      exact h.status fd hfd
  · have hcount := pfiles.openCount_update x pfiles.nfiles hi
    have hne : ¬ FD_NONE = FD_OPENED := by decide
    rw [hx, if_neg hne, if_pos hopen] at hcount
    have hn := h.nfiles
    dsimp only
    omega

end

/-! ## The operations -/

section

variable {t t' : FileTable} {fd r : Int} {closes closes' : Nat}
  {s s' : Vfs} {path : Path} {adjacent : Bool}

theorem FileTable.store_inv {α : Type} {value : α → Int} {update : α → File → OpenFile}
    {answer : Outcome (α × File × Vfs)} (h : t.store fd value update answer = .ok (r, t')) :
    ∃ a file s, r = value a ∧ t' = t.put fd (update a file) s := by
  rw [store, bind_eq_ok] at h
  obtain ⟨⟨a, file, s⟩, -, h⟩ := h
  cases h
  exact ⟨a, file, s, rfl, rfl⟩

theorem FileTable.call_inv {c : FdCall} (h : t.call fd c = .ok (r, t')) :
    ∃ x s, t' = t.put fd x s ∧
      x.status = if c.closes ∧ r = 0 then FD_NONE else (t.entry fd).status := by
  cases c with
  | read stack buf count =>
    by_cases hr : (t.entry fd).readable = 0
    · simp only [call, doRead, if_pos hr, error_bind] at h
      cases h
    · rw [call_read stack buf count hr] at h
      obtain ⟨a, file, s, -, rfl⟩ := store_inv h
      exact ⟨_, s, rfl, rfl⟩
  | write buf count =>
    by_cases hw : (t.entry fd).writable = 0
    · simp only [call, doWrite, if_pos hw] at h
      cases h
    · rw [call_write buf count hw] at h
      obtain ⟨a, file, s, -, rfl⟩ := store_inv h
      exact ⟨_, s, rfl, rfl⟩
  | lseek offset whence =>
    rw [call_lseek] at h
    obtain ⟨a, file, s, -, rfl⟩ := store_inv h
    exact ⟨_, s, rfl, rfl⟩
  | readdir =>
    rw [call_readdir] at h
    obtain ⟨a, file, s, -, rfl⟩ := store_inv h
    exact ⟨_, s, rfl, rfl⟩
  | close =>
    rw [call_close] at h
    obtain ⟨a, file, s, rfl, rfl⟩ := store_inv h
    refine ⟨_, s, rfl, ?_⟩
    by_cases hr : r = 0
    · simp [FdCall.closes, hr]
    · simp [FdCall.closes, hr]
  | closedir =>
    rw [call_closedir] at h
    obtain ⟨a, file, s, rfl, rfl⟩ := store_inv h
    refine ⟨_, s, rfl, ?_⟩
    by_cases hr : r = 0
    · simp [FdCall.closes, hr]
    · simp [FdCall.closes, hr]

theorem allocVfsFile_opened {d f : Nat} {readable writable : Bool}
    (h : allocVfsFile s d readable writable = .ok (f, s')) :
    ∃ file, s'.file f = .ok file ∧ file.opened = true := by
  rw [allocVfsFile, bind_eq_ok] at h
  obtain ⟨e, -, h⟩ := h
  cases h
  refine ⟨{ opened := true, readable := readable, writable := writable, offset := 0, dentry := d },
    ?_, rfl⟩
  rw [Vfs.file]
  dsimp only
  rw [update_self]

theorem vfsOpen_opened {flags parent f : Nat} (h : vfsOpen s path flags parent = .ok (some f, s')) :
    ∃ file, s'.file f = .ok file ∧ file.opened = true := by
  rw [vfsOpen, bind_eq_ok] at h
  obtain ⟨⟨target, s1⟩, -, h⟩ := h
  cases target with
  | none => cases h
  | some d =>
    dsimp only at h
    rw [openDentry, bind_eq_ok] at h
    obtain ⟨type, -, h⟩ := h
    split at h
    · cases h
    · rw [bind_eq_ok] at h
      obtain ⟨⟨readable, writable⟩, -, h⟩ := h
      rw [bind_eq_ok] at h
      obtain ⟨⟨f', s2⟩, halloc, h⟩ := h
      cases h
      exact allocVfsFile_opened halloc

theorem hookOpendir_files {d : Nat}
    (h : hookOpendir s d adjacent = .ok s') : s'.files = s.files := by
  rw [hookOpendir, bind_eq_ok] at h
  obtain ⟨e, -, h⟩ := h
  cases hi : e.inode with
  | null => simp [hi] at h
  | host =>
    rw [hi] at h
    cases h
    rfl
  | rfs p =>
    rw [hi] at h
    dsimp only at h
    rw [rfsHookOpendir, bind_eq_ok] at h
    obtain ⟨dir, -, h⟩ := h
    rw [bind_eq_ok] at h
    obtain ⟨⟨pages, rdev⟩, -, h⟩ := h
    cases h
    rfl

theorem vfsOpendir_opened {parent f : Nat}
    (h : vfsOpendir s path parent adjacent = .ok (some f, s')) :
    ∃ file, s'.file f = .ok file ∧ file.opened = true := by
  rw [vfsOpendir, bind_eq_ok] at h
  obtain ⟨⟨l, s1⟩, -, h⟩ := h
  dsimp only at h
  cases hl : l.found with
  | none => simp [hl] at h
  | some d =>
    rw [hl] at h
    rw [bind_eq_ok] at h
    obtain ⟨type, -, h⟩ := h
    split at h
    · cases h
    · rw [bind_eq_ok] at h
      obtain ⟨⟨f', s2⟩, halloc, h⟩ := h
      rw [bind_eq_ok] at h
      obtain ⟨s3, hhook, h⟩ := h
      cases h
      obtain ⟨file, hfile, hopen⟩ := allocVfsFile_opened halloc
      refine ⟨file, ?_, hopen⟩
      rwa [Vfs.file, hookOpendir_files hhook]

theorem FileTable.doOpen_inv {flags : Nat} (h : t.doOpen path flags = .ok (r, t')) :
    (r = -1 ∧ t'.pfiles = t.pfiles) ∨
      (r = t.pfiles.freeFd ∧ t.pfiles.nfiles < MAX_FILES ∧
        ∃ file : File, file.opened = true ∧ t'.pfiles = t.pfiles.install file.toEntry) := by
  rw [doOpen, bind_eq_ok] at h
  obtain ⟨⟨openedFile, s⟩, hopen, h⟩ := h
  cases openedFile with
  | none =>
    cases h
    exact .inl ⟨rfl, rfl⟩
  | some f =>
    dsimp only at h
    split at h
    · cases h
    · rename_i hlt
      rw [bind_eq_ok] at h
      obtain ⟨file, hfile, h⟩ := h
      cases h
      obtain ⟨file', hfile', hopened⟩ := vfsOpen_opened hopen
      cases hfile.symm.trans hfile'
      exact .inr ⟨rfl, by omega, file, hopened, rfl⟩

theorem FileTable.doOpendir_inv (h : t.doOpendir path adjacent = .ok (r, t')) :
    (r = -1 ∧ t'.pfiles = t.pfiles) ∨
      (r = t.pfiles.freeFd ∧
        (t.pfiles.openedFiles (min t.pfiles.freeFd (MAX_FILES - 1))).status = FD_NONE ∧
        ∃ file : File, file.opened = true ∧ t'.pfiles = t.pfiles.install file.toEntry) := by
  rw [doOpendir, bind_eq_ok] at h
  obtain ⟨⟨openedFile, s⟩, hopen, h⟩ := h
  cases openedFile with
  | none =>
    cases h
    exact .inl ⟨rfl, rfl⟩
  | some f =>
    dsimp only at h
    split at h
    · cases h
    · rename_i hfree
      rw [bind_eq_ok] at h
      obtain ⟨file, hfile, h⟩ := h
      cases h
      obtain ⟨file', hfile', hopened⟩ := vfsOpendir_opened hopen
      cases hfile.symm.trans hfile'
      exact .inr ⟨rfl, not_not.mp hfree, file, hopened, rfl⟩

theorem getOpenedFile_lt (fd : Int) : getOpenedFile fd < MAX_FILES := by
  unfold getOpenedFile MAX_FILES
  split
  · omega
  · omega

theorem ProcFiles.Counted.call {c : FdCall} (h : t.pfiles.Counted closes)
    (hopen : c.closes = true → t.IsOpen fd) (hs : t.call fd c = .ok (r, t')) :
    t'.pfiles.Counted (if c.closes ∧ r = 0 then closes + 1 else closes) := by
  obtain ⟨x, s, rfl, hx⟩ := call_inv hs
  by_cases hclose : c.closes = true ∧ r = 0
  · rw [if_pos hclose] at hx ⊢
    exact h.close (getOpenedFile_lt fd) (hopen hclose.1).2 hx
  · rw [if_neg hclose] at hx ⊢
    exact h.keep (getOpenedFile_lt fd) hx

theorem File.toEntry_opened {file : File} (h : file.opened = true) :
    file.toEntry.status = FD_OPENED := if_pos h

theorem ProcFiles.Counted.free_of_nfiles (h : t.pfiles.Counted closes)
    (hlt : t.pfiles.nfiles < MAX_FILES) :
    ∃ fd, fd < MAX_FILES ∧ (t.pfiles.openedFiles fd).status = FD_NONE := by
  have hn := h.nfiles
  exact h.exists_free (by omega)

theorem free_of_last (h : (t.pfiles.openedFiles (min t.pfiles.freeFd (MAX_FILES - 1))).status
      = FD_NONE) :
    ∃ fd, fd < MAX_FILES ∧ (t.pfiles.openedFiles fd).status = FD_NONE := by
  refine ⟨_, ?_, h⟩
  unfold MAX_FILES
  omega

theorem ProcFiles.Counted.countStep {op : TableOp} (h : t.pfiles.Counted closes)
    (hok : ClosesOpen (t, closes) op)
    (hs : FileTable.countStep (t, closes) op = .ok (t', closes')) : t'.pfiles.Counted closes' := by
  cases op with
  | openFile path flags =>
    rw [FileTable.countStep, bind_eq_ok] at hs
    obtain ⟨t1, hstep, hs⟩ := hs
    cases hs
    cases hopen : t.doOpen path flags with
    | error e =>
      rw [step, hopen] at hstep
      cases hstep
    | ok out =>
      rw [step, hopen] at hstep
      cases hstep
      rcases doOpen_inv hopen with ⟨-, hsame⟩ | ⟨-, hlt, file, hfile, hinst⟩
      · rwa [hsame]
      · rw [hinst]
        exact h.install (File.toEntry_opened hfile) (h.free_of_nfiles hlt)
  | opendir path adjacent =>
    rw [FileTable.countStep, bind_eq_ok] at hs
    obtain ⟨t1, hstep, hs⟩ := hs
    cases hs
    cases hopen : t.doOpendir path adjacent with
    | error e =>
      rw [step, hopen] at hstep
      cases hstep
    | ok out =>
      rw [step, hopen] at hstep
      cases hstep
      rcases doOpendir_inv hopen with ⟨-, hsame⟩ | ⟨-, hfree, file, hfile, hinst⟩
      · rwa [hsame]
      · rw [hinst]
        exact h.install (File.toEntry_opened hfile) (free_of_last hfree)
  | call fd c =>
    rw [FileTable.countStep, bind_eq_ok] at hs
    obtain ⟨⟨r, t1⟩, hcall, hs⟩ := hs
    cases hs
    exact h.call hok hcall
  | other op =>
    rw [FileTable.countStep, FileTable.step, bind_eq_ok] at hs
    obtain ⟨t1, hstep, hs⟩ := hs
    cases hs
    rw [bind_eq_ok] at hstep
    obtain ⟨s, -, hstep⟩ := hstep
    cases hstep
    exact h

theorem FileTable.Fresh.counted (h : t.Fresh) : t.pfiles.Counted 0 := by
  obtain ⟨rdev, stack, old, -, hinit⟩ := h
  have hnone : ∀ fd, fd < MAX_FILES → (t.pfiles.openedFiles fd).status = FD_NONE := by
    intro fd hfd
    rw [hinit, initProcFileManagement]
    dsimp only
    rw [if_pos hfd]
  refine ⟨fun fd hfd => .inl (hnone fd hfd), ?_⟩
  have hcount : t.pfiles.openCount = 0 := by
    refine sum_eq_zero (fun fd hfd => ?_)
    rw [hnone fd (mem_range.mp hfd), if_neg (by decide)]
  rw [hcount, hinit]
  rfl

theorem FileTable.Fresh.counted_of_reaches {t0 : FileTable} (h : t0.Fresh)
    (hrun : Reaches FileTable.countStep ClosesOpen (t0, 0) (t, closes)) :
    t.pfiles.Counted closes := by
  refine hrun.invariant (fun tc => tc.1.pfiles.Counted tc.2) h.counted ?_
  intro tc op tc' hcounted hok hstep
  exact hcounted.countStep hok hstep

/-- **When the count of open files is exact.** In every run of a process that closes only
descriptors it has open: `nfiles` is the number of open entries if and only if no close has
succeeded yet; a file that could be opened makes `do_open` panic if and only if the open entries
and the closes so far are `MAX_FILES` together; and the descriptor that `do_open` or `do_opendir`
returns was free. -/
theorem nfiles_exact_iff {t₀ : FileTable} (hfresh : t₀.Fresh)
    (hrun : Reaches FileTable.countStep ClosesOpen (t₀, 0) (t, closes)) :
    (t.pfiles.nfiles = t.pfiles.openCount ↔ closes = 0) ∧
    (∀ path flags f s, vfsOpen t.vfs path flags t.pfiles.cwd = .ok (some f, s) →
      (t.doOpen path flags = .error (.panic "do_open: no file entry for current process!\n" []) ↔
        MAX_FILES ≤ t.pfiles.openCount + closes)) ∧
    (∀ path flags fd t', t.doOpen path flags = .ok (fd, t') → fd ≠ -1 →
      (0 ≤ fd ∧ fd < (MAX_FILES : Int)) ∧ (t.entry fd).status = FD_NONE) ∧
    (∀ path adjacent fd t', t.doOpendir path adjacent = .ok (fd, t') → fd ≠ -1 →
      (0 ≤ fd ∧ fd < (MAX_FILES : Int)) ∧ (t.entry fd).status = FD_NONE) := by
  have hcounted := hfresh.counted_of_reaches hrun
  have hn := hcounted.nfiles
  have hentry : (∃ fd, fd < MAX_FILES ∧ (t.pfiles.openedFiles fd).status = FD_NONE) →
      (0 ≤ (t.pfiles.freeFd : Int) ∧ (t.pfiles.freeFd : Int) < (MAX_FILES : Int)) ∧
        (t.entry t.pfiles.freeFd).status = FD_NONE := by
    intro hfree
    obtain ⟨hlt, hnone⟩ := ProcFiles.freeFd_spec hfree
    have hrange : 0 ≤ (t.pfiles.freeFd : Int) ∧ (t.pfiles.freeFd : Int) < (MAX_FILES : Int) := by
      omega
    refine ⟨hrange, ?_⟩
    rwa [entry, getOpenedFile, if_pos hrange, Int.toNat_natCast]
  refine ⟨by omega, ?_, ?_, ?_⟩
  · intro path flags f s hopen
    obtain ⟨file, hfile, -⟩ := vfsOpen_opened hopen
    rw [doOpen, hopen, ok_bind]
    dsimp only
    by_cases hfull : (MAX_FILES : Int) ≤ t.pfiles.nfiles
    · rw [if_pos hfull]
      exact ⟨fun _ => by omega, fun _ => rfl⟩
    · rw [if_neg hfull, hfile, ok_bind]
      constructor
      · intro herr
        cases herr
      · intro hle
        omega
  · intro path flags fd t' hopen hne
    rcases doOpen_inv hopen with ⟨hfail, -⟩ | ⟨rfl, hlt, -⟩
    · exact absurd hfail hne
    · exact hentry (hcounted.free_of_nfiles hlt)
  · intro path adjacent fd t' hopen hne
    rcases doOpendir_inv hopen with ⟨hfail, -⟩ | ⟨rfl, hfree, -⟩
    · exact absurd hfail hne
    · exact hentry (free_of_last hfree)

end

/-! ## A run -/

instance ClosesOpen.decidable (tc : FileTable × Nat) : ∀ op, Decidable (ClosesOpen tc op)
  | .call fd c => inferInstanceAs (Decidable (c.closes = true → tc.1.IsOpen fd))
  | .openFile _ _ | .opendir _ _ | .other _ => instDecidableTrue

/-- On a blank disk `ops` lead to a table and a number of closes of which `P` holds. -/
abbrev CountRun (ops : List TableOp) (P : FileTable × Nat → Prop) : Prop :=
  ∃ s, fsInit { blocks := fun _ _ => 0, iobuffer := fun _ => 0 } (fun _ => 0) = .ok s ∧
    ∃ tc, Runs FileTable.countStep ClosesOpen (freshTable s, 0) ops tc ∧ P tc

theorem CountRun.reached {ops : List TableOp} {P : FileTable × Nat → Prop} (h : CountRun ops P) :
    ∃ (t0 t : FileTable) (closes : Nat), t0.Fresh ∧
      Reaches FileTable.countStep ClosesOpen (t0, 0) (t, closes) ∧ P (t, closes) := by
  obtain ⟨s, hinit, tc, hrun, hp⟩ := h
  exact ⟨freshTable s, tc.1, tc.2, ⟨_, _, _, hinit, rfl⟩, hrun.reaches .start, hp⟩

/-- One file was opened and closed, another is open. -/
theorem nfiles_exact_iff_reopened :
    ∃ (t₀ t : FileTable) (closes : Nat), t₀.Fresh ∧
      Reaches FileTable.countStep ClosesOpen (t₀, 0) (t, closes) ∧ t.IsOpen 0 ∧ closes = 1 ∧
      (t.pfiles.nfiles = t.pfiles.openCount ↔ closes = 0) := by
  have hrun : CountRun [.openFile pathA 66, .call 0 .close, .openFile pathA 66]
      (fun tc => tc.1.IsOpen 0 ∧ tc.2 = 1) := by decide +kernel
  obtain ⟨t₀, t, closes, hfresh, hreach, hopen, hone⟩ := hrun.reached
  exact ⟨t₀, t, closes, hfresh, hreach, hopen, hone, (nfiles_exact_iff hfresh hreach).1⟩

/-- After one open and one close no file is open and `nfiles` is 1. -/
theorem nfiles_counts_closed :
    ∃ (t₀ t : FileTable) (closes : Nat), t₀.Fresh ∧
      Reaches FileTable.countStep ClosesOpen (t₀, 0) (t, closes) ∧
      t.pfiles.nfiles = 1 ∧ t.pfiles.openCount = 0 := by
  have hrun : CountRun [.openFile pathA 66, .call 0 .close]
      (fun tc => tc.1.pfiles.nfiles = 1 ∧ tc.1.pfiles.openCount = 0) := by decide +kernel
  exact hrun.reached

end CabbagePKE
